import Immediate.Text.Blank
/-! Trimming takes the blanks at either end of a text and nothing else, so text that ends with a
character of its own is only trimmed where more text follows. -/
namespace Immediate.Text

/-- The characters without the blank ones at their end. -/
def trimEnd (cs : List Char) : List Char := (cs.reverse.dropWhile isBlank).reverse

/-- A class that holds of none of the blanks holds of what is not blank only. -/
theorem not_isBlank_of_class {p : Char → Bool} {x : Char} (others : blanks.all (!p ·) = true)
    (held : p x = true) : isBlank x = false := by
  cases blank : isBlank x with
  | false => rfl
  | true =>
    have other := List.all_eq_true.mp others x (List.contains_iff_mem.mp blank)
    simp [held] at other

theorem trimChars_eq (cs : List Char) : trimChars cs = trimEnd (cs.dropWhile isBlank) := rfl

variable {cs front more : List Char} {x : Char}

theorem trimEnd_append_blanks (blank : ∀ x ∈ more, isBlank x = true) :
    trimEnd (cs ++ more) = trimEnd cs := by
  have reversed : ∀ x ∈ more.reverse, isBlank x = true := by simpa using blank
  rw [trimEnd, List.reverse_append, List.dropWhile_append_of_pos reversed, trimEnd]

/-- Up to a character that is not blank, the end stays as it is. -/
theorem trimEnd_append_cons (visible : isBlank x = false) :
    trimEnd (front ++ x :: more) = front ++ x :: trimEnd more := by
  simp only [trimEnd, List.reverse_append, List.reverse_cons, List.append_assoc]
  rw [List.dropWhile_append]
  split
  · rename_i nothing
    rw [List.isEmpty_iff] at nothing
    simp [nothing, visible]
  · simp

/-- Before something that is not blank everything stays as it is. -/
theorem trimEnd_append (something : trimEnd more ≠ []) :
    trimEnd (front ++ more) = front ++ trimEnd more := by
  have left : ¬ (more.reverse.dropWhile isBlank).isEmpty := by simpa [trimEnd] using something
  rw [trimEnd, List.reverse_append, List.dropWhile_append, if_neg left, List.reverse_append,
    List.reverse_reverse, trimEnd]

/-- What trimming takes away is blank. -/
theorem exists_blanks (cs : List Char) :
    ∃ blanks, cs = trimEnd cs ++ blanks ∧ ∀ x ∈ blanks, isBlank x = true := by
  refine ⟨(cs.reverse.takeWhile isBlank).reverse, ?_, ?_⟩
  · rw [trimEnd, ← List.reverse_append, List.takeWhile_append_dropWhile, List.reverse_reverse]
  · intro x member
    exact List.all_eq_true.mp List.all_takeWhile x (List.mem_reverse.mp member)

theorem starts_trimEnd (cs : List Char) : trimEnd cs <+: cs := by
  obtain ⟨blanks, equal, -⟩ := exists_blanks cs
  exact ⟨blanks, equal.symm⟩

theorem trimChars_dropWhile (cs : List Char) : trimChars (cs.dropWhile isBlank) = trimChars cs := by
  have blank := List.all_eq_true.mp (List.all_takeWhile (p := isBlank) (l := cs))
  have behind : (cs.takeWhile isBlank ++ cs.dropWhile isBlank).dropWhile isBlank =
      (cs.dropWhile isBlank).dropWhile isBlank := List.dropWhile_append_of_pos blank
  rw [List.takeWhile_append_dropWhile] at behind
  rw [trimChars_eq, trimChars_eq, ← behind]

theorem trimChars_append_blanks (blank : ∀ x ∈ more, isBlank x = true) :
    trimChars (cs ++ more) = trimChars cs := by
  rw [trimChars_eq, trimChars_eq, List.dropWhile_append]
  split
  · rename_i nothing
    rw [List.isEmpty_iff] at nothing
    have rest : (more ++ []).dropWhile isBlank = [] := List.dropWhile_append_of_pos blank
    rw [List.append_nil] at rest
    rw [nothing, rest]
  · exact trimEnd_append_blanks blank

/-- Text without blanks stays as it is. -/
theorem trimChars_of_visible (visible : ∀ x ∈ cs, isBlank x = false) : trimChars cs = cs := by
  have kept {cs : List Char} (visible : ∀ x ∈ cs, isBlank x = false) : cs.dropWhile isBlank = cs := by
    cases cs with
    | nil => rfl
    | cons x rest => rw [List.dropWhile_cons_of_neg (by simp [visible x List.mem_cons_self])]
  rw [trimChars, kept visible, kept fun x member => visible x (List.mem_reverse.mp member),
    List.reverse_reverse]

theorem trimChars_trimEnd (cs : List Char) : trimChars (trimEnd cs) = trimChars cs := by
  obtain ⟨blanks, equal, blank⟩ := exists_blanks cs
  calc
    trimChars (trimEnd cs) = trimChars (trimEnd cs ++ blanks) :=
      (trimChars_append_blanks blank).symm
    _ = trimChars cs := by rw [← equal]

end Immediate.Text
