import PatternBridge.Text.Blank

/-! Characters by their numbers: ASCII letters in lower case, and white space. -/

namespace PatternBridge.Text

theorem toLower_cases (c : Char) :
    (65 ≤ c.toNat ∧ c.toNat ≤ 90 ∧ c.toLower.toNat = c.toNat + 32) ∨
      (¬ (65 ≤ c.toNat ∧ c.toNat ≤ 90) ∧ c.toLower = c) := by
  have hiff : (c.val ≥ 'A'.val ∧ c.val ≤ 'Z'.val) ↔ 65 ≤ c.toNat ∧ c.toNat ≤ 90 := Iff.rfl
  by_cases h : c.val ≥ 'A'.val ∧ c.val ≤ 'Z'.val
  · have hlower : c.toLower.val = c.val + 32 := congrArg Char.val (dif_pos h)
    obtain ⟨hge, hle⟩ := hiff.1 h
    refine .inl ⟨hge, hle, ?_⟩
    have hbound : c.val.toNat ≤ 90 := hle
    show c.toLower.val.toNat = c.val.toNat + 32
    simp only [hlower, UInt32.toNat_add, UInt32.reduceToNat]
    omega
  · exact .inr ⟨fun h' => h (hiff.2 h'), dif_neg h⟩

theorem toLower_toLower (c : Char) : c.toLower.toLower = c.toLower := by
  obtain ⟨hge, hle, hlower⟩ | ⟨-, hsame⟩ := toLower_cases c
  · obtain ⟨hge', hle', -⟩ | ⟨-, hsame⟩ := toLower_cases c.toLower
    · omega
    · exact hsame
  · rw [hsame, hsame]

theorem lower_lower (s : Text) : lower (lower s) = lower s := by
  unfold lower
  rw [List.map_map]
  exact List.map_congr_left fun c _ => toLower_toLower c

theorem toNat_of_isBlank {c : Char} (h : isBlank c) : c.toNat ≤ 0x20 ∨ 0x85 ≤ c.toNat := by
  have hle {a b : Char} : a ≤ b ↔ a.toNat ≤ b.toNat := Iff.rfl
  simp only [isBlank, Bool.or_eq_true, Bool.and_eq_true, decide_eq_true_eq, beq_iff_eq, hle,
    ← Char.toNat_inj, Char.reduceToNat] at h
  omega

end PatternBridge.Text
