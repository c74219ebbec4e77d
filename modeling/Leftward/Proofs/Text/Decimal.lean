import Leftward.Text.Decimal

/-!
# Decimal text there and back

The general form of a numeral allows much that a number literal of the language cannot be: signs,
underscores, digits of other scripts, white space around it. **On ASCII digits alone reading is
what one expects** (`read_digits`): their value, if there are not too many of them. So what is
written reads back (`read_repr`), and what is read can be written again (`lt_tooLarge_of_read`).
-/

namespace Leftward
namespace Decimal

/-! ## ASCII digits -/

theorem isDigit_iff {c : Char} : c.isDigit = true ↔ 0x30 ≤ c.toNat ∧ c.toNat ≤ 0x39 :=
  Char.isDigit_iff_toNat

theorem not_isBlank_of_isDigit {c : Char} (h : c.isDigit = true) : Text.isBlank c = false := by
  obtain ⟨hlow, hhigh⟩ := isDigit_iff.mp h
  simp only [Text.isBlank, Bool.or_eq_false_iff, Bool.and_eq_false_iff, decide_eq_false_iff_not]
  omega

theorem asciiDigit?_of_isDigit {c : Char} (h : c.isDigit = true) : asciiDigit? c = some c := by
  obtain ⟨hlow, hhigh⟩ := isDigit_iff.mp h
  have hfind : zeros.find? (fun z => z ≤ c.toNat && c.toNat ≤ z + 9) = some 0x30 := by
    rw [zeros, List.find?_cons_of_pos]
    simp only [Bool.and_eq_true, decide_eq_true_eq]
    omega
  have hc : 0x30 + (c.toNat - 0x30) = c.toNat := by omega
  rw [asciiDigit?, hfind, Option.map_some, hc, Char.ofNat_toNat]

theorem digits?_of_isDigit {ds : List Char} (hd : ∀ c ∈ ds, c.isDigit = true) :
    digits? true ds = some ds := by
  induction ds with
  | nil => rfl
  | cons c cs ih =>
    have hc := asciiDigit?_of_isDigit (hd c List.mem_cons_self)
    have hcs := ih fun x hx => hd x (List.mem_cons_of_mem c hx)
    simp only [digits?, hc, hcs, Option.map_some]

theorem dropWhile_isPadding {ds : List Char} (hd : ∀ c ∈ ds, c.isDigit = true) :
    ds.dropWhile isPadding = ds := by
  cases ds with
  | nil => rfl
  | cons c cs =>
    have hc : isPadding c = false := by
      simp [isPadding, not_isBlank_of_isDigit (hd c List.mem_cons_self)]
    rw [List.dropWhile_cons_of_neg (by simp [hc])]

/-! ## Reading -/

/-- **A run of ASCII digits reads as its value**, if it is not too long. -/
theorem read_digits {ds : List Char} (hne : ds ≠ []) (hd : ∀ c ∈ ds, c.isDigit = true) :
    read ds =
      if ds.length ≤ maxDigits then some (Nat.ofDigitChars 10 ds 0 : Int) else none := by
  have hcore : ((ds.dropWhile isPadding).reverse.dropWhile isPadding).reverse = ds := by
    rw [dropWhile_isPadding hd, dropWhile_isPadding (by simpa using hd), List.reverse_reverse]
  obtain ⟨c, cs, rfl⟩ := List.exists_cons_of_ne_nil hne
  have hc : c.isDigit = true := hd c List.mem_cons_self
  have hdigits : digits? false (c :: cs) = some (c :: cs) := by
    simp only [digits?, asciiDigit?_of_isDigit hc,
      digits?_of_isDigit fun x hx => hd x (List.mem_cons_of_mem c hx), Option.map_some]
  have hsigned : read (c :: cs) = signed? false (c :: cs) := by
    rw [read, hcore]
    split
    · rename_i heq
      cases heq
      cases hc
    · rename_i heq
      cases heq
      cases hc
    · rfl
  rw [hsigned, signed?, hdigits]
  rfl

theorem length_toDigits_le {n k : Nat} (hk : 0 < k) (h : n < Nat.pow 10 k) :
    (Nat.toDigits 10 n).length ≤ k := (Nat.length_toDigits_le_iff (by decide) hk).mpr h

theorem repr_ne_nil (n : Nat) : n.repr.toList ≠ [] := by
  rw [Nat.toList_repr]
  exact List.ne_nil_of_length_pos Nat.length_toDigits_pos

theorem isDigit_of_mem_repr {n : Nat} {c : Char} (h : c ∈ n.repr.toList) : c.isDigit = true := by
  rw [Nat.toList_repr] at h
  exact Nat.isDigit_of_mem_toDigits (by decide) (by decide) h

/-- An integer that is not too large is written. -/
theorem write_of_lt {i : Int} (h : i.natAbs < tooLarge) :
    write i = some (if i < 0 then "-" ++ i.natAbs.repr else i.natAbs.repr) := if_pos h

/-- **What is written reads back.** -/
theorem read_repr {n : Nat} (h : n < tooLarge) : read n.repr.toList = some (n : Int) := by
  unfold tooLarge at h
  have hlen : n.repr.toList.length ≤ maxDigits := by
    rw [Nat.toList_repr]
    exact length_toDigits_le (by decide) h
  rw [read_digits (repr_ne_nil n) fun _ => isDigit_of_mem_repr, if_pos hlen, Nat.toList_repr,
    Nat.ofDigitChars_ten_toDigits]

/-- The value of digits is less than the power of ten that they are too few for. -/
theorem ofDigitChars_lt {ds : List Char} (hd : ∀ c ∈ ds, c.isDigit = true) :
    Nat.ofDigitChars 10 ds 0 < Nat.pow 10 ds.length := by
  induction ds with
  | nil => decide
  | cons c cs ih =>
    obtain ⟨hlow, hhigh⟩ := isDigit_iff.mp (hd c List.mem_cons_self)
    have hcs := ih fun x hx => hd x (List.mem_cons_of_mem c hx)
    have hzero : '0'.toNat = 0x30 := rfl
    rw [Nat.ofDigitChars_cons, Nat.ofDigitChars_eq_ofDigitChars_zero, hzero]
    have hbound : Nat.pow 10 cs.length * (10 * 0 + (c.toNat - 0x30)) ≤ Nat.pow 10 cs.length * 9 :=
      Nat.mul_le_mul_left _ (by omega)
    have hpow : Nat.pow 10 (c :: cs).length = Nat.pow 10 cs.length * 10 := rfl
    change Nat.pow 10 cs.length * (10 * 0 + (c.toNat - 0x30)) + _ < _
    omega

theorem ofDigitChars_lt_of_length_le {ds : List Char} {k : Nat}
    (hd : ∀ c ∈ ds, c.isDigit = true) (hk : ds.length ≤ k) :
    Nat.ofDigitChars 10 ds 0 < Nat.pow 10 k :=
  Nat.lt_of_lt_of_le (ofDigitChars_lt hd) (Nat.pow_le_pow_right (by decide) hk)

/-- **What is read can be written again**: it is not negative, and not too large. -/
theorem lt_tooLarge_of_read {ds : List Char} {value : Int} (hne : ds ≠ [])
    (hd : ∀ c ∈ ds, c.isDigit = true) (h : read ds = some value) :
    0 ≤ value ∧ value.natAbs < tooLarge := by
  rw [read_digits hne hd] at h
  split at h
  · rename_i hlen
    cases h
    refine ⟨Int.natCast_nonneg _, ?_⟩
    rw [Int.natAbs_natCast]
    unfold tooLarge
    exact ofDigitChars_lt_of_length_le hd hlen
  · cases h

end Decimal
end Leftward
