import PatternBridge.Text.Blank

/-!
File name extensions as users write them.
-/

namespace PatternBridge.Extension

/-- The extension without surrounding white space and with a leading dot. No extension is left of
white space alone or of a single dot. -/
def normalize? (ext : Text) : Option Text :=
  match Text.trim ext with
  | [] => none
  | ['.'] => none
  | '.' :: s => some ('.' :: s)
  | s => some ('.' :: s)

theorem exists_of_normalize? {ext e : Text} (h : normalize? ext = some e) :
    ∃ c s, e = '.' :: c :: s := by
  unfold normalize? at h
  split at h
  · cases h
  · cases h
  · next s hdot _ =>
    cases s with
    | nil => exact absurd rfl hdot
    | cons c s => exact ⟨c, s, (Option.some.inj h).symm⟩
  · next s hnil _ _ =>
    cases hs : Text.trim ext with
    | nil => exact absurd hs hnil
    | cons c s => exact ⟨c, s, by rw [← hs]; exact (Option.some.inj h).symm⟩

end PatternBridge.Extension
