import CommandLanguage.Text.Basic

/-!
# Numbers in decimal

A number is written as its decimal digits, without zeros in front, and the digits denote the number.
-/

set_option autoImplicit false

namespace CommandLanguage.Text

/-- The text is a number in decimal digits, without zeros in front. -/
def isNumeral : Text → Bool
  | [] => false
  | u :: rest => isDigit u && rest.all isDigit && (u ≠ unit '0' || rest.isEmpty)

def digit (n : Nat) : CodeUnit := UInt16.ofNat (48 + n)

variable {n : Nat}

theorem isDigit_digit : ∀ n < 10, isDigit (digit n) = true := by decide

theorem toNat_digit : ∀ n < 10, (digit n).toNat = 48 + n := by decide

theorem ofString_digitChar : ∀ n < 10, ofChar n.digitChar = [digit n] := by decide

theorem ofNat_of_lt (h : n < 10) : ofNat n = [digit n] := by
  change (Nat.repr n).toList.flatMap ofChar = _
  rw [Nat.toList_repr, Nat.toDigits_of_lt_base h]
  exact (List.append_nil _).trans (ofString_digitChar n h)

theorem ofNat_of_le (h : 10 ≤ n) : ofNat n = ofNat (n / 10) ++ [digit (n % 10)] := by
  change (Nat.repr n).toList.flatMap ofChar = (Nat.repr (n / 10)).toList.flatMap ofChar ++ _
  rw [Nat.toList_repr, Nat.toList_repr, Nat.toDigits_of_base_le (by decide) h, List.flatMap_append,
    ← ofString_digitChar (n % 10) (Nat.mod_lt n (by decide))]
  exact congrArg _ (List.append_nil _)

/-- The digits of a number: those of its tenth part, then the last one. -/
theorem digits_induction {motive : Nat → Prop} (small : ∀ n < 10, motive n)
    (step : ∀ n, 10 ≤ n → motive (n / 10) → motive n) (n : Nat) : motive n := by
  induction n using Nat.strongRecOn with
  | ind n ih =>
    rcases Nat.lt_or_ge n 10 with h | h
    · exact small n h
    · exact step n h (ih (n / 10) (by omega))

theorem digitsValue_append (digits : Text) (u : CodeUnit) :
    digitsValue (digits ++ [u]) = 10 * digitsValue digits + (u.toNat - 48) := by
  rw [digitsValue, List.foldl_append]
  rfl

theorem digitsValue_ofNat (n : Nat) : digitsValue (ofNat n) = n := by
  induction n using digits_induction with
  | small n h =>
    rw [ofNat_of_lt h, digitsValue, List.foldl_cons, toNat_digit n h]
    simp
  | step n h ih =>
    rw [ofNat_of_le h, digitsValue_append, ih, toNat_digit _ (Nat.mod_lt n (by decide))]
    omega

theorem isDigit_of_mem_ofNat (n : Nat) : ∀ u ∈ ofNat n, isDigit u = true := by
  induction n using digits_induction with
  | small n h =>
    rw [ofNat_of_lt h]
    exact List.forall_mem_singleton.mpr (isDigit_digit n h)
  | step n h ih =>
    rw [ofNat_of_le h]
    exact List.forall_mem_append.mpr
      ⟨ih, List.forall_mem_singleton.mpr (isDigit_digit _ (Nat.mod_lt n (by decide)))⟩

theorem head?_ofNat (positive : 0 < n) : ∃ u, (ofNat n).head? = some u ∧ u ≠ unit '0' := by
  induction n using digits_induction with
  | small n h =>
    refine ⟨digit n, by rw [ofNat_of_lt h, List.head?_cons], fun zero => ?_⟩
    have := congrArg UInt16.toNat zero
    rw [toNat_digit n h] at this
    have : (unit '0').toNat = 48 := rfl
    omega
  | step n h ih =>
    obtain ⟨u, hu, nonzero⟩ := ih (by omega)
    exact ⟨u, by rw [ofNat_of_le h, List.head?_append, hu, Option.some_or], nonzero⟩

theorem isNumeral_ofNat (n : Nat) : isNumeral (ofNat n) = true := by
  rcases Nat.eq_zero_or_pos n with rfl | positive
  · decide
  · obtain ⟨u, hu, nonzero⟩ := head?_ofNat positive
    have digits := isDigit_of_mem_ofNat n
    cases hn : ofNat n with
    | nil =>
      rw [hn] at hu
      cases hu
    | cons v rest =>
      rw [hn] at hu digits
      cases hu
      obtain ⟨first, others⟩ := List.forall_mem_cons.mp digits
      rw [isNumeral, first, List.all_eq_true.mpr others]
      simpa using Or.inl nonzero

end CommandLanguage.Text
