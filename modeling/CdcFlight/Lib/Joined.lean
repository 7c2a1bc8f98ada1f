import Mathlib

/-!
# Texts joined from parts

A text that joins parts with a separator determines the parts when none of them contains the
separator. Where only the first or the last part is free of it, the text still determines that
part and what it is joined to. Decimal texts of integers determine the integer, and contain digits
and a sign only.

## Main results

* `Lib.intercalate_inj`: the parts of a joined text.
* `Lib.append_first_inj`, `Lib.append_last_inj`: the first and the last part of a joined text.
* `Lib.toString_int_inj`, `Lib.notMem_toString_int`: decimal texts of integers.
-/

namespace Lib

/-- **The parts of a joined text.** -/
theorem intercalate_inj {sep : Char} {parts parts' : List String}
    (hparts : ∀ part ∈ parts, sep ∉ part.toList) (hparts' : ∀ part ∈ parts', sep ∉ part.toList)
    (hne : parts ≠ []) (hne' : parts' ≠ [])
    (h : (String.singleton sep).intercalate parts = (String.singleton sep).intercalate parts') :
    parts = parts' := by
  have hlist := congrArg String.toList h
  rw [String.toList_intercalate, String.toList_intercalate, String.toList_singleton] at hlist
  have hsplit := congrArg (List.splitOn sep) hlist
  rw [List.splitOn_intercalate sep (by simpa using hparts) (by simpa using hne),
    List.splitOn_intercalate sep (by simpa using hparts') (by simpa using hne')] at hsplit
  exact List.map_injective_iff.2 (fun _ _ => String.toList_inj.1) hsplit

/-- A text splits in one way at its first separator. -/
theorem append_first_inj {sep : Char} {a b x y : List Char} (ha : sep ∉ a) (hb : sep ∉ b)
    (h : a ++ sep :: x = b ++ sep :: y) : a = b ∧ x = y := by
  rcases List.append_eq_append_iff.1 h with ⟨c, rfl, hc⟩ | ⟨c, rfl, hc⟩
  · cases c with
    | nil => simpa using hc
    | cons d c =>
      rw [List.cons_append, List.cons.injEq] at hc
      exact absurd (by simp [hc.1]) hb
  · cases c with
    | nil => simpa [eq_comm] using hc
    | cons d c =>
      rw [List.cons_append, List.cons.injEq] at hc
      exact absurd (by simp [hc.1]) ha

/-- A text splits in one way at its last separator. -/
theorem append_last_inj {sep : Char} {a b x y : List Char} (hx : sep ∉ x) (hy : sep ∉ y)
    (h : a ++ sep :: x = b ++ sep :: y) : a = b ∧ x = y := by
  have hrev := congrArg List.reverse h
  simp only [List.reverse_append, List.reverse_cons, List.append_assoc, List.singleton_append]
    at hrev
  obtain ⟨hxy, hab⟩ := append_first_inj (by simpa using hx) (by simpa using hy) hrev
  exact ⟨List.reverse_injective hab, List.reverse_injective hxy⟩

/-! ### Decimal texts -/

theorem toDigits_inj {n m : ℕ} (h : Nat.toDigits 10 n = Nat.toDigits 10 m) : n = m := by
  have hparse := congrArg (fun digits => Nat.ofDigitChars 10 digits 0) h
  simpa using hparse

theorem isDigit_of_mem_toDigits {c : Char} {n : ℕ} (h : c ∈ Nat.toDigits 10 n) :
    c.isDigit = true :=
  Nat.isDigit_of_mem_toDigits (by decide) (by decide) h

theorem toList_toString_nat (n : ℕ) : (toString n).toList = Nat.toDigits 10 n := by simp

/-- The text of an integer: its digits, after a sign where it is negative. -/
theorem toList_toString_int (n : ℤ) : (toString n).toList =
    if 0 ≤ n then Nat.toDigits 10 n.toNat else '-' :: Nat.toDigits 10 (-n).toNat := by
  rw [Int.toString_eq_repr, Int.repr_eq_if]
  split_ifs with h
  · simp
  · rw [String.toList_append]
    simp

theorem toString_int_inj {n m : ℤ} (h : toString n = toString m) : n = m := by
  have hlist := congrArg String.toList h
  rw [toList_toString_int, toList_toString_int] at hlist
  have hsign (k : ℕ) (l : List Char) : '-' :: l ≠ Nat.toDigits 10 k := fun he => by
    have := isDigit_of_mem_toDigits (he ▸ List.mem_cons_self : '-' ∈ Nat.toDigits 10 k)
    exact absurd this (by decide)
  split_ifs at hlist with hn hm hm
  · have := toDigits_inj hlist
    omega
  · exact absurd hlist.symm (hsign _ _)
  · exact absurd hlist (hsign _ _)
  · have := toDigits_inj (List.cons.inj hlist).2
    omega

theorem toString_nat_inj {n m : ℕ} (h : toString n = toString m) : n = m := by
  have hlist := congrArg String.toList h
  rw [toList_toString_nat, toList_toString_nat] at hlist
  exact toDigits_inj hlist

/-- A character that is neither a digit nor a sign does not occur in the text of an integer. -/
theorem notMem_toString_int {c : Char} (hdigit : c.isDigit = false) (hsign : c ≠ '-') (n : ℤ) :
    c ∉ (toString n).toList := by
  rw [toList_toString_int]
  split_ifs
  · exact fun h => by simp [isDigit_of_mem_toDigits h] at hdigit
  · rintro h
    rcases List.mem_cons.1 h with h | h
    · exact hsign h
    · simp [isDigit_of_mem_toDigits h] at hdigit

theorem notMem_toString_nat {c : Char} (hdigit : c.isDigit = false) (n : ℕ) :
    c ∉ (toString n).toList := by
  rw [toList_toString_nat]
  exact fun h => by simp [isDigit_of_mem_toDigits h] at hdigit

end Lib
