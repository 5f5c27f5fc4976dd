import PatternBridge.Log
import PatternBridge.Proofs.Text.Bytes

/-! Where a log line is cut: its message keeps the longest prefix of whole characters that fits. -/

namespace PatternBridge.LogLine
open Text

/-- Without colours a line shows its source in brackets and of its message the longest prefix that
fits, whose end is the boundary that the search finds. -/
theorem printed_longest_prefix (l : LogLine) :
    ∃ cut rest, l.message = cut ++ rest ∧
      l.printed false = "\x1b[K" ++ "[" ++ l.source ++ "]" ++ " " ++ cut ++ "\n" ∧
      byteLength cut = lastBoundary l.message (120 - (byteLength l.source + 3)) ∧
      byteLength cut ≤ 120 - (byteLength l.source + 3) ∧
      ∀ p, p <+: l.message → byteLength p ≤ 120 - (byteLength l.source + 3) → p <+: cut := by
  obtain ⟨⟨rest, hrest⟩, hlength⟩ := truncate_prefix l.room l.message
  refine ⟨truncate l.room l.message, rest, hrest.symm, ?_, hlength, ?_, fun p => prefix_truncate⟩
  · simp [printed, bracketed]
  · rw [hlength]
    exact (isGreatest_lastBoundary l.message l.room).1.1

example : LogLine.printed false ⟨List.replicate 114 'a', "éèà"⟩ =
    "\x1b[K[" ++ List.replicate 114 'a' ++ "] é\n" := by decide +kernel

end PatternBridge.LogLine
