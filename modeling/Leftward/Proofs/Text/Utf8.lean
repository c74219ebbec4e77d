import Leftward.Text.Utf8

/-!
# Decoding is the inverse of encoding

UTF-8 is told from the other side by what a character is encoded as, which is arithmetic on its code
point (`String.utf8EncodeChar`). **The decoder accepts what is the encoding of a text, gives back
that text, and refuses everything else** (`decode_eq_ok_iff`). Overlong forms, surrogates, code
points above the greatest, and bytes that are missing or stray are refused for the one reason that
no text is encoded so.

Between two characters the decoder remembers nothing. Within one it remembers which bytes may
follow, and with what character they end it (`Unfinished.EndsWith`). A lead byte together with what
ends it is the encoding of a character, and each encoding of several bytes is one of these
(`endsWith_lead_iff`).
-/

namespace Leftward
namespace Utf8

/-- The bytes that a text is encoded as. -/
def encode (text : List Char) : List UInt8 := text.flatMap String.utf8EncodeChar

variable {position : Nat} {done text : List Char} {u : Unfinished} {b : UInt8}
  {bytes tail rest : List UInt8} {c : Char}

/-! ## Within a character -/

/-- The byte may stand next in the unfinished character. -/
def Unfinished.Admits (u : Unfinished) (b : UInt8) : Prop :=
  u.low.toNat ≤ b.toNat ∧ b.toNat ≤ u.high.toNat

/-- The bits of the code point, with those of one more byte. -/
def Unfinished.bitsWith (u : Unfinished) (b : UInt8) : Nat := u.bits * 64 + (b.toNat - 0x80)

/-- The character with one more byte, of several that are owed. -/
def Unfinished.next (u : Unfinished) (b : UInt8) : Unfinished :=
  ⟨u.start, u.lead, u.seen + 1, u.owed - 1, 0x80, 0xBF, u.bitsWith b⟩

/-- The bytes are what is owed, and with them the unfinished character is this one. -/
inductive Unfinished.EndsWith : Unfinished → List UInt8 → Char → Prop where
  | last {u : Unfinished} {b : UInt8} :
    u.owed ≤ 1 → u.Admits b → EndsWith u [b] (Char.ofNat (u.bitsWith b))
  | more {u : Unfinished} {b : UInt8} {tail : List UInt8} {c : Char} :
    1 < u.owed → u.Admits b → EndsWith (u.next b) tail c → EndsWith u (b :: tail) c

theorem decodeFrom_admitted (h : u.Admits b) :
    decodeFrom position (some u) done (b :: rest) =
      if u.owed ≤ 1 then
        decodeFrom (position + 1) none (Char.ofNat (u.bitsWith b) :: done) rest
      else decodeFrom (position + 1) (some (u.next b)) done rest :=
  if_pos h

theorem decodeFrom_refused (h : ¬ u.Admits b) :
    decodeFrom position (some u) done (b :: rest) = .error (u.fault .invalidContinuation) :=
  if_neg h

/-- **Within a character, decoding succeeds if the character ends and the rest is decoded.** -/
theorem decodeFrom_some_iff :
    decodeFrom position (some u) done bytes = .ok text ↔
      ∃ tail c rest, bytes = tail ++ rest ∧ u.EndsWith tail c ∧
        decodeFrom (position + tail.length) none (c :: done) rest = .ok text := by
  induction bytes generalizing position u with
  | nil =>
    constructor
    · intro h
      cases h
    · rintro ⟨tail, c, rest, hnil, hends, -⟩
      obtain ⟨rfl, -⟩ := List.append_eq_nil_iff.mp hnil.symm
      cases hends
  | cons b bytes ih =>
    by_cases hadmits : u.Admits b
    · rw [decodeFrom_admitted hadmits]
      by_cases howed : u.owed ≤ 1
      · rw [if_pos howed]
        constructor
        · intro h
          exact ⟨[b], _, bytes, rfl, .last howed hadmits, h⟩
        · rintro ⟨tail, c, rest, hbytes, hends, h⟩
          cases hends with
          | last =>
            cases hbytes
            exact h
          | more hmore => omega
      · rw [if_neg howed, ih]
        constructor
        · rintro ⟨tail, c, rest, rfl, hends, h⟩
          refine ⟨b :: tail, c, rest, rfl, .more (by omega) hadmits hends, ?_⟩
          rwa [List.length_cons, Nat.add_comm tail.length, ← Nat.add_assoc]
        · rintro ⟨tail, c, rest, hbytes, hends, h⟩
          cases hends with
          | last hlast => omega
          | more _ _ hends =>
            cases hbytes
            rw [List.length_cons, Nat.add_comm _ 1, ← Nat.add_assoc] at h
            exact ⟨_, c, rest, rfl, hends, h⟩
    · rw [decodeFrom_refused hadmits]
      constructor
      · intro h
        cases h
      · rintro ⟨tail, c, rest, hbytes, hends, -⟩
        cases hends with
        | last _ h =>
          cases hbytes
          exact absurd h hadmits
        | more _ h _ =>
          cases hbytes
          exact absurd h hadmits

/-! ## What a character is encoded as -/

/-- A code point with its bits in bytes, seven of them in a byte alone, else six in each byte behind
the lead byte. -/
inductive Spread (v : Nat) : List UInt8 → Prop where
  | one {a : UInt8} : v < 0x80 → a.toNat = v → Spread v [a]
  | two {a b : UInt8} : 0x80 ≤ v → v < 0x800 →
    a.toNat = v / 64 + 0xC0 → b.toNat = v % 64 + 0x80 → Spread v [a, b]
  | three {a b c : UInt8} : 0x800 ≤ v → v < 0x10000 →
    a.toNat = v / 4096 + 0xE0 → b.toNat = v / 64 % 64 + 0x80 → c.toNat = v % 64 + 0x80 →
    Spread v [a, b, c]
  | four {a b c d : UInt8} : 0x10000 ≤ v →
    a.toNat = v / 262144 + 0xF0 → b.toNat = v / 4096 % 64 + 0x80 →
    c.toNat = v / 64 % 64 + 0x80 → d.toNat = v % 64 + 0x80 → Spread v [a, b, c, d]

theorem toNat_lt (c : Char) : c.toNat < 0x110000 := by
  have hvalid : c.toNat.isValidChar := c.valid
  unfold Nat.isValidChar at hvalid
  omega

theorem toNat_byte {n m : Nat} (hn : n < 256) (h : n = m) : (UInt8.ofNat n).toNat = m := by
  rw [UInt8.toNat_ofNat_of_lt' hn, h]

theorem spread_encoded (c : Char) : Spread c.toNat (String.utf8EncodeChar c) := by
  have hbound := toNat_lt c
  have hval : c.val.toNat = c.toNat := rfl
  unfold String.utf8EncodeChar
  simp only [hval]
  split
  · exact .one (by omega) (toNat_byte (by omega) rfl)
  split
  · exact .two (by omega) (by omega) (toNat_byte (by omega) (by omega)) (toNat_byte (by omega) rfl)
  split
  · exact .three (by omega) (by omega) (toNat_byte (by omega) (by omega))
      (toNat_byte (by omega) rfl) (toNat_byte (by omega) rfl)
  · exact .four (by omega) (toNat_byte (by omega) (by omega)) (toNat_byte (by omega) rfl)
      (toNat_byte (by omega) rfl) (toNat_byte (by omega) rfl)

/-- The bits determine the bytes. -/
theorem Spread.unique {v : Nat} {other : List UInt8} (h : Spread v bytes)
    (hother : Spread v other) : bytes = other := by
  cases h <;> cases hother <;> simp only [List.cons.injEq, ← UInt8.toNat_inj, and_true] <;> omega

theorem spread_iff : Spread c.toNat bytes ↔ String.utf8EncodeChar c = bytes := by
  constructor
  · exact (spread_encoded c).unique
  · rintro rfl
    exact spread_encoded c

/-! ## What a lead byte announces -/

theorem lead_eq : lead position b =
    if 0xC2 ≤ b.toNat ∧ b.toNat ≤ 0xDF then some ⟨position, b, 1, 1, 0x80, 0xBF, b.toNat - 0xC0⟩
    else if b.toNat = 0xE0 then some ⟨position, b, 1, 2, 0xA0, 0xBF, 0⟩
    else if b.toNat = 0xED then some ⟨position, b, 1, 2, 0x80, 0x9F, 0xD⟩
    else if 0xE1 ≤ b.toNat ∧ b.toNat ≤ 0xEF then
      some ⟨position, b, 1, 2, 0x80, 0xBF, b.toNat - 0xE0⟩
    else if b.toNat = 0xF0 then some ⟨position, b, 1, 3, 0x90, 0xBF, 0⟩
    else if b.toNat = 0xF4 then some ⟨position, b, 1, 3, 0x80, 0x8F, 4⟩
    else if 0xF1 ≤ b.toNat ∧ b.toNat ≤ 0xF3 then
      some ⟨position, b, 1, 3, 0x80, 0xBF, b.toNat - 0xF0⟩
    else none := by
  simp only [lead, ← UInt8.toNat_inj]
  rfl

/-- The unfinished character has so many bits in its lead byte, owes so many bytes, and admits as
the next one what the condition says. -/
def Unfinished.Expects (u : Unfinished) (bits owed : Nat) (next : Nat → Prop) : Prop :=
  u.bits = bits ∧ u.owed = owed ∧ ∀ b : UInt8, u.Admits b ↔ next b.toNat

theorem Unfinished.Expects.of_range {start seen owed bits announced : Nat} {lead least most : UInt8}
    {next : Nat → Prop} (low high : Nat) (hlow : least.toNat = low) (hhigh : most.toNat = high)
    (hbits : announced = bits) (hnext : ∀ n, low ≤ n ∧ n ≤ high ↔ next n) :
    (⟨start, lead, seen, owed, least, most, announced⟩ : Unfinished).Expects bits owed next := by
  refine ⟨hbits, rfl, fun b => ?_⟩
  rw [Admits, hlow, hhigh]
  exact hnext b.toNat

theorem lead_two (position : Nat) (h : 0xC2 ≤ b.toNat ∧ b.toNat ≤ 0xDF) :
    ∃ u, lead position b = some u ∧
      u.Expects (b.toNat - 0xC0) 1 fun n => 0x80 ≤ n ∧ n ≤ 0xBF :=
  ⟨_, if_pos h, .of_range 0x80 0xBF rfl rfl rfl fun _ => Iff.rfl⟩

theorem lead_three (position : Nat) (h : 0xE0 ≤ b.toNat ∧ b.toNat ≤ 0xEF) :
    ∃ u, lead position b = some u ∧ u.Expects (b.toNat - 0xE0) 2 fun n =>
      0x80 ≤ n ∧ n ≤ 0xBF ∧ (b.toNat = 0xE0 → 0xA0 ≤ n) ∧ (b.toNat = 0xED → n ≤ 0x9F) := by
  rw [lead_eq, if_neg (by omega)]
  split
  · exact ⟨_, rfl, .of_range 0xA0 0xBF rfl rfl (by omega) (by omega)⟩
  split
  · exact ⟨_, rfl, .of_range 0x80 0x9F rfl rfl (by omega) (by omega)⟩
  rw [if_pos (by omega)]
  exact ⟨_, rfl, .of_range 0x80 0xBF rfl rfl rfl (by omega)⟩

theorem lead_four (position : Nat) (h : 0xF0 ≤ b.toNat ∧ b.toNat ≤ 0xF4) :
    ∃ u, lead position b = some u ∧ u.Expects (b.toNat - 0xF0) 3 fun n =>
      0x80 ≤ n ∧ n ≤ 0xBF ∧ (b.toNat = 0xF0 → 0x90 ≤ n) ∧ (b.toNat = 0xF4 → n ≤ 0x8F) := by
  rw [lead_eq, if_neg (by omega), if_neg (by omega), if_neg (by omega), if_neg (by omega)]
  split
  · exact ⟨_, rfl, .of_range 0x90 0xBF rfl rfl (by omega) (by omega)⟩
  split
  · exact ⟨_, rfl, .of_range 0x80 0x8F rfl rfl (by omega) (by omega)⟩
  rw [if_pos (by omega)]
  exact ⟨_, rfl, .of_range 0x80 0xBF rfl rfl rfl (by omega)⟩

/-- No other byte is a lead byte of several. -/
theorem bounds_of_lead (h : lead position b = some u) : 0xC2 ≤ b.toNat ∧ b.toNat ≤ 0xF4 := by
  rw [lead_eq] at h
  refine Classical.byContradiction fun hbounds => ?_
  rw [if_neg (by omega), if_neg (by omega), if_neg (by omega), if_neg (by omega), if_neg (by omega),
    if_neg (by omega), if_neg (by omega)] at h
  cases h

section Expecting

variable {bits owed : Nat} {admitted : Nat → Prop}

theorem Unfinished.Expects.bitsWith (h : u.Expects bits owed admitted) (b : UInt8) :
    u.bitsWith b = bits * 64 + (b.toNat - 0x80) := by
  unfold Unfinished.bitsWith
  rw [h.1]

theorem Unfinished.Expects.endsWith_one (h : u.Expects bits 1 admitted) :
    u.EndsWith tail c ↔ ∃ b, tail = [b] ∧ admitted b.toNat ∧ c = Char.ofNat (u.bitsWith b) := by
  obtain ⟨-, howed, hadmits⟩ := h
  constructor
  · intro hends
    cases hends with
    | @last _ b _ hb => exact ⟨b, rfl, (hadmits b).mp hb, rfl⟩
    | more hmore => omega
  · rintro ⟨b, rfl, hb, hc⟩
    rw [hc]
    exact .last (Nat.le_of_eq howed) ((hadmits b).mpr hb)

theorem Unfinished.Expects.endsWith_more (h : u.Expects bits (owed + 2) admitted) :
    u.EndsWith tail c ↔
      ∃ b rest, tail = b :: rest ∧ admitted b.toNat ∧ (u.next b).EndsWith rest c := by
  obtain ⟨-, howed, hadmits⟩ := h
  constructor
  · intro hends
    cases hends with
    | last hlast => omega
    | more _ hb hends => exact ⟨_, _, rfl, (hadmits _).mp hb, hends⟩
  · rintro ⟨b, rest, rfl, hb, hends⟩
    exact .more (by omega) ((hadmits b).mpr hb) hends

theorem Unfinished.Expects.next (h : u.Expects bits (owed + 1) admitted) (b : UInt8) :
    (u.next b).Expects (bits * 64 + (b.toNat - 0x80)) owed fun n => 0x80 ≤ n ∧ n ≤ 0xBF := by
  rw [Unfinished.next, h.bitsWith, h.2.1, Nat.add_sub_cancel]
  exact .of_range 0x80 0xBF rfl rfl rfl fun _ => Iff.rfl

end Expecting

theorem toNat_ofNat {v : Nat} (h : v.isValidChar) : (Char.ofNat v).toNat = v := by
  rw [Char.ofNat, dif_pos h]
  rfl

theorem eq_ofNat_iff {v : Nat} (h : v.isValidChar) : c = Char.ofNat v ↔ c.toNat = v := by
  constructor
  · rintro rfl
    exact toNat_ofNat h
  · rintro rfl
    exact (Char.ofNat_toNat c).symm

/-! ## A lead byte and what ends it -/

theorem endsWith_lead_two (h : lead position b = some u) (hb : b.toNat ≤ 0xDF) :
    u.EndsWith tail c ↔ Spread c.toNat (b :: tail) := by
  have hlow := (bounds_of_lead h).1
  obtain ⟨u', hu, hexpects⟩ := lead_two position ⟨hlow, hb⟩
  obtain rfl : u' = u := Option.some.inj (hu.symm.trans h)
  rw [hexpects.endsWith_one]
  constructor
  · rintro ⟨b2, rfl, hb2, hc⟩
    rw [hexpects.bitsWith] at hc
    have hv := (eq_ofNat_iff (.inl (by omega))).mp hc
    exact .two (by omega) (by omega) (by omega) (by omega)
  · intro hspread
    cases hspread with
    | @two _ b2 _ _ ha hb2 =>
      refine ⟨b2, rfl, by omega, ?_⟩
      rw [hexpects.bitsWith, eq_ofNat_iff (.inl (by omega))]
      omega
    | _ => omega

theorem endsWith_lead_three (h : lead position b = some u) (hlow : 0xE0 ≤ b.toNat)
    (hhigh : b.toNat ≤ 0xEF) : u.EndsWith tail c ↔ Spread c.toNat (b :: tail) := by
  obtain ⟨u', hu, hexpects⟩ := lead_three position ⟨hlow, hhigh⟩
  obtain rfl : u' = u := Option.some.inj (hu.symm.trans h)
  rw [hexpects.endsWith_more]
  constructor
  · rintro ⟨b2, rest, rfl, hb2, hends⟩
    obtain ⟨b3, rfl, hb3, hc⟩ := (hexpects.next b2).endsWith_one.mp hends
    rw [(hexpects.next b2).bitsWith] at hc
    have hv := (eq_ofNat_iff (by unfold Nat.isValidChar; omega)).mp hc
    exact .three (by omega) (by omega) (by omega) (by omega) (by omega)
  · intro hspread
    have hvalid : c.toNat.isValidChar := c.valid
    unfold Nat.isValidChar at hvalid
    cases hspread with
    | @three _ b2 b3 _ _ ha hb2 hb3 =>
      refine ⟨b2, [b3], rfl, by omega, (hexpects.next b2).endsWith_one.mpr ⟨b3, rfl, by omega, ?_⟩⟩
      rw [(hexpects.next b2).bitsWith, eq_ofNat_iff (by unfold Nat.isValidChar; omega)]
      omega
    | _ => omega

theorem endsWith_lead_four (h : lead position b = some u) (hlow : 0xF0 ≤ b.toNat) :
    u.EndsWith tail c ↔ Spread c.toNat (b :: tail) := by
  have hhigh := (bounds_of_lead h).2
  obtain ⟨u', hu, hexpects⟩ := lead_four position ⟨hlow, hhigh⟩
  obtain rfl : u' = u := Option.some.inj (hu.symm.trans h)
  rw [hexpects.endsWith_more]
  constructor
  · rintro ⟨b2, rest, rfl, hb2, hends⟩
    obtain ⟨b3, rest, rfl, hb3, hends⟩ := (hexpects.next b2).endsWith_more.mp hends
    obtain ⟨b4, rfl, hb4, hc⟩ := ((hexpects.next b2).next b3).endsWith_one.mp hends
    rw [((hexpects.next b2).next b3).bitsWith] at hc
    have hv := (eq_ofNat_iff (.inr (by omega))).mp hc
    exact .four (by omega) (by omega) (by omega) (by omega) (by omega)
  · intro hspread
    have hbound := toNat_lt c
    cases hspread with
    | @four _ b2 b3 b4 _ ha hb2 hb3 hb4 =>
      refine ⟨b2, _, rfl, by omega, (hexpects.next b2).endsWith_more.mpr ⟨b3, _, rfl, by omega, ?_⟩⟩
      refine ((hexpects.next b2).next b3).endsWith_one.mpr ⟨b4, rfl, by omega, ?_⟩
      rw [((hexpects.next b2).next b3).bitsWith, eq_ofNat_iff (.inr (by omega))]
      omega
    | _ => omega

/-- **A lead byte and what ends it are the encoding of a character.** -/
theorem endsWith_lead_iff (h : lead position b = some u) :
    u.EndsWith tail c ↔ String.utf8EncodeChar c = b :: tail := by
  rw [← spread_iff]
  by_cases htwo : b.toNat ≤ 0xDF
  · exact endsWith_lead_two h htwo
  by_cases hthree : b.toNat ≤ 0xEF
  · exact endsWith_lead_three h (by omega) hthree
  · exact endsWith_lead_four h (by omega)

/-- An encoding begins with a byte that is all of it, or with a lead byte. -/
theorem encoded_begins (position : Nat) (h : String.utf8EncodeChar c = b :: tail) :
    (b.toNat < 0x80 ∧ tail = [] ∧ c = Char.ofNat b.toNat) ∨
      (0x80 ≤ b.toNat ∧ ∃ u, lead position b = some u) := by
  have hbound := toNat_lt c
  cases spread_iff.mpr h with
  | one hv ha => exact .inl ⟨by omega, rfl, by rw [ha, Char.ofNat_toNat]⟩
  | two =>
    obtain ⟨u, hu, -⟩ := lead_two position (b := b) ⟨by omega, by omega⟩
    exact .inr ⟨by omega, u, hu⟩
  | three =>
    obtain ⟨u, hu, -⟩ := lead_three position (b := b) ⟨by omega, by omega⟩
    exact .inr ⟨by omega, u, hu⟩
  | four =>
    obtain ⟨u, hu, -⟩ := lead_four position (b := b) ⟨by omega, by omega⟩
    exact .inr ⟨by omega, u, hu⟩

theorem encoded_ne_nil (c : Char) : String.utf8EncodeChar c ≠ [] := by
  intro h
  cases spread_iff.mpr h

theorem encodeChar_ascii (h : b.toNat < 0x80) :
    String.utf8EncodeChar (Char.ofNat b.toNat) = [b] := by
  refine spread_iff.mp ?_
  rw [toNat_ofNat (.inl (by omega))]
  exact .one h rfl

/-! ## Between characters -/

theorem decodeFrom_ascii (h : b.toNat < 0x80) :
    decodeFrom position none done (b :: rest) =
      decodeFrom (position + 1) none (Char.ofNat b.toNat :: done) rest :=
  if_pos h

theorem decodeFrom_lead (h : 0x80 ≤ b.toNat) :
    decodeFrom position none done (b :: rest) =
      match lead position b with
      | none => .error ⟨position, b, 1, .invalidStart⟩
      | some u => decodeFrom (position + 1) (some u) done rest :=
  if_neg (Nat.not_lt.mpr h)

/-- **Between characters, decoding goes on where a character is encoded**, and with what is behind
it. -/
theorem decodeFrom_none_iff :
    decodeFrom position none done (b :: bytes) = .ok text ↔
      ∃ tail c rest, bytes = tail ++ rest ∧ String.utf8EncodeChar c = b :: tail ∧
        decodeFrom (position + 1 + tail.length) none (c :: done) rest = .ok text := by
  by_cases hascii : b.toNat < 0x80
  · rw [decodeFrom_ascii hascii]
    constructor
    · intro h
      exact ⟨[], _, bytes, rfl, encodeChar_ascii hascii, h⟩
    · rintro ⟨tail, c, rest, rfl, hencoded, h⟩
      rcases encoded_begins position hencoded with ⟨-, rfl, rfl⟩ | ⟨hlead, -⟩
      · exact h
      · exact absurd hascii (Nat.not_lt.mpr hlead)
  · rw [decodeFrom_lead (Nat.not_lt.mp hascii)]
    cases hlead : lead position b with
    | none =>
      constructor
      · intro h
        cases h
      · rintro ⟨tail, c, rest, -, hencoded, -⟩
        rcases encoded_begins position hencoded with ⟨hbelow, -⟩ | ⟨-, u, hu⟩
        · exact absurd hbelow hascii
        · rw [hlead] at hu
          cases hu
    | some u =>
      simp only [decodeFrom_some_iff, endsWith_lead_iff hlead]

/-! ## Texts -/

theorem encode_cons (c : Char) (text : List Char) :
    encode (c :: text) = String.utf8EncodeChar c ++ encode text := List.flatMap_cons

theorem encode_eq_nil_iff : encode text = [] ↔ text = [] := by
  cases text with
  | nil => simp [encode]
  | cons c text => simp [encode_cons, encoded_ne_nil c]

/-- **Decoding succeeds on the encodings of texts**, and adds the text to what has been read. -/
theorem decodeFrom_eq_ok_iff :
    decodeFrom position none done bytes = .ok text ↔
      ∃ more, bytes = encode more ∧ text = done.reverse ++ more := by
  generalize hsize : bytes.length = size
  induction size using Nat.strongRecOn generalizing position done bytes with
  | ind size ih =>
    subst hsize
    cases bytes with
    | nil =>
      constructor
      · intro h
        exact ⟨[], rfl, by rw [List.append_nil]; exact (Except.ok.inj h).symm⟩
      · rintro ⟨more, hnil, rfl⟩
        rw [encode_eq_nil_iff.mp hnil.symm, List.append_nil]
        rfl
    | cons b bytes =>
      have hshorter (tail rest : List UInt8) : rest.length < (b :: (tail ++ rest)).length := by
        rw [List.length_cons, List.length_append]
        omega
      rw [decodeFrom_none_iff]
      constructor
      · rintro ⟨tail, c, rest, rfl, hencoded, h⟩
        obtain ⟨more, rfl, rfl⟩ := (ih rest.length (hshorter tail rest) rfl).mp h
        refine ⟨c :: more, ?_, by simp⟩
        rw [encode_cons, hencoded, List.cons_append]
      · rintro ⟨more, hmore, rfl⟩
        cases more with
        | nil => cases hmore
        | cons c more =>
          obtain ⟨b', tail, hencoded⟩ := List.exists_cons_of_ne_nil (encoded_ne_nil c)
          rw [encode_cons, hencoded, List.cons_append] at hmore
          cases hmore
          refine ⟨tail, c, encode more, rfl, hencoded, ?_⟩
          rw [ih (encode more).length (hshorter tail (encode more)) rfl]
          exact ⟨more, rfl, by simp⟩

/-- **The decoder accepts the encodings of texts and nothing else**, and gives back the text. -/
theorem decode_eq_ok_iff : decode bytes = .ok text ↔ bytes = encode text := by
  rw [decode, decodeFrom_eq_ok_iff]
  simp

/-- Bytes that encode no text are at fault somewhere. -/
theorem exists_fault (h : ∀ text, bytes ≠ encode text) : ∃ fault, decode bytes = .error fault := by
  cases hdecode : decode bytes with
  | error fault => exact ⟨fault, rfl⟩
  | ok text => exact absurd (decode_eq_ok_iff.mp hdecode) (h text)

/-- An overlong form of a line feed, a surrogate, and a character cut off at the end. -/
example : ∀ bytes ∈ [[0xC0, 0x8A], [0xED, 0xA0, 0x80], [0x61, 0xE2, 0x82]],
    ∃ fault, decode bytes = .error fault := by
  simp only [List.forall_mem_cons]
  exact ⟨⟨_, rfl⟩, ⟨_, rfl⟩, ⟨_, rfl⟩, List.forall_mem_nil _⟩

end Utf8
end Leftward
