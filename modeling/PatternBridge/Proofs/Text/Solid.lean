import PatternBridge.Proofs.Text.Kept

/-! What is left of text without its white space. Trimming and joining by white space do not change
it, so that it is what a change of layout has to keep. -/

namespace PatternBridge.Text

def solid (s : Text) : Text := s.filter fun c => !isBlank c

@[simp] theorem solid_nil : solid [] = [] := rfl

@[simp] theorem solid_append (s t : Text) : solid (s ++ t) = solid s ++ solid t :=
  List.filter_append s t

theorem solid_cons (c : Char) (s : Text) : solid (c :: s) = solid [c] ++ solid s :=
  solid_append [c] s

theorem solid_eq_nil_of_isBlankText {s : Text} (h : isBlankText s) : solid s = [] :=
  filter_eq_nil_of_all (fun c hc => by rw [hc, Bool.not_true]) h

section
variable {p : Char → Bool} (hp : ∀ c, p c → isBlank c)
include hp

theorem solid_takeWhile_eq_nil (s : Text) : solid (s.takeWhile p) = [] :=
  filter_eq_nil_of_all (fun c hc => by rw [hp c hc, Bool.not_true]) List.all_takeWhile

theorem solid_dropWhile (s : Text) : solid (s.dropWhile p) = solid s :=
  filter_dropWhile (fun c hc => by rw [hp c hc, Bool.not_true]) s

end

end PatternBridge.Text
