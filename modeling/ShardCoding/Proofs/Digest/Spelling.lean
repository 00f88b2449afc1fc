import Mathlib.Data.Nat.Digits.Defs
import Mathlib.Tactic.Ring
import ShardCoding.Json.Lexer
import ShardCoding.Proofs.Digest.Hex

/-!
# What hexadecimal text spells

Which texts are read as hexadecimal, and as which bytes, said of the characters and of the number that they spell.

* `bigEndian` : the number that digits spell; `hexNumber` : the number that a text of hexadecimal digits spells;
  `IsDigestText` : 64 digits of either case;
* `joinDigits`, `exists_of_hexDecode`, `hexDecode_eq_ok` : the bytes that digits make, and the texts that are read so;
* `Digest.number`, `Digest.number_inj` : the number of a digest, which no other digest has;
* `hexDecode_eq_digest_iff` : the texts that are read as a given digest.
-/

namespace ShardCoding

/-! ## Numbers -/

/-- The number that digits spell, the most significant first. -/
def bigEndian (base : Nat) (digits : List Nat) : Nat := Nat.ofDigits base digits.reverse

theorem bigEndian_cons (base d : Nat) (digits : List Nat) :
    bigEndian base (d :: digits) = d * base ^ digits.length + bigEndian base digits := by
  rw [bigEndian, List.reverse_cons, Nat.ofDigits_append, Nat.ofDigits_singleton, List.length_reverse, ← bigEndian]
  ring

theorem bigEndian_inj {base : Nat} (hbase : 1 < base) {digits digits' : List Nat} (hlength : digits.length = digits'.length)
    (hdigits : ∀ d ∈ digits, d < base) (hdigits' : ∀ d ∈ digits', d < base)
    (h : bigEndian base digits = bigEndian base digits') : digits = digits' := by
  apply List.reverse_inj.1
  exact Nat.ofDigits_inj_of_len_eq hbase (by simpa using hlength) (by simpa using hdigits) (by simpa using hdigits') h

/-! ## Digits -/

theorem hexDigitValue?_of_ascii {n : Nat} (h : n < 128) :
    hexValue? (UInt8.ofNat n) = (hexDigitValue? (Char.ofNat n)).map UInt8.ofNat := by
  have hall : ∀ n < 128, hexValue? (UInt8.ofNat n) = (hexDigitValue? (Char.ofNat n)).map UInt8.ofNat := by decide
  exact hall n h

theorem hexDigitValue?_of_not_ascii {c : Char} (h : 128 ≤ c.toNat) : hexDigitValue? c = none := by
  have habove : ∀ d : Char, d.toNat < 128 → ¬ c ≤ d := by
    intro d hd hle
    have hcd : c.toNat ≤ d.toNat := UInt32.le_iff_toNat_le.1 hle
    omega
  simp [hexDigitValue?, isDigit, habove]

theorem lt_of_hexDigitValue? {c : Char} {n : Nat} (h : hexDigitValue? c = some n) : n < 16 := by
  by_cases hascii : c.toNat < 128
  · have hall : ∀ k < 128, ∀ n ∈ hexDigitValue? (Char.ofNat k), n < 16 := by decide
    exact hall c.toNat hascii n (by rwa [Char.ofNat_toNat])
  · rw [hexDigitValue?_of_not_ascii (Nat.not_lt.1 hascii)] at h
    cases h

theorem hexValue?_of_le {n : Nat} (h : 128 ≤ n) (h' : n < 256) : hexValue? (UInt8.ofNat n) = none := by
  have hn : (UInt8.ofNat n).toNat = n := UInt8.toNat_ofNat_of_lt' h'
  simp only [hexValue?, UInt8.le_iff_toNat_le, hn, UInt8.toNat_ofNat]
  rw [if_neg (by omega), if_neg (by omega), if_neg (by omega)]

/-- A digit is a single byte, and no character beyond ASCII begins with a byte that is read as a digit. -/
theorem utf8EncodeChar_cases (c : Char) :
    (∃ b, String.utf8EncodeChar c = [b] ∧ hexValue? b = (hexDigitValue? c).map UInt8.ofNat) ∨
    hexDigitValue? c = none ∧ ∃ b rest, String.utf8EncodeChar c = b :: rest ∧ hexValue? b = none := by
  by_cases hascii : c.toNat ≤ 127
  · left
    refine ⟨UInt8.ofNat c.toNat, if_pos hascii, ?_⟩
    rw [hexDigitValue?_of_ascii (Nat.lt_succ_of_le hascii), Char.ofNat_toNat]
  · right
    refine ⟨hexDigitValue?_of_not_ascii (Nat.lt_of_not_le hascii), ?_⟩
    by_cases htwo : c.toNat ≤ 2047
    · exact ⟨_, _, (if_neg hascii).trans (if_pos htwo), hexValue?_of_le (by omega) (by omega)⟩
    · by_cases hthree : c.toNat ≤ 65535
      · exact ⟨_, _, (if_neg hascii).trans ((if_neg htwo).trans (if_pos hthree)), hexValue?_of_le (by omega) (by omega)⟩
      · exact ⟨_, _, (if_neg hascii).trans ((if_neg htwo).trans (if_neg hthree)), hexValue?_of_le (by omega) (by omega)⟩

/-! ## Texts -/

/-- The bytes that digits make, one for two of them. -/
def joinDigits : List UInt8 → Bytes
  | [] => []
  | [_] => []
  | hi :: lo :: rest => (16 * hi + lo) :: joinDigits rest

theorem length_joinDigits (values : List UInt8) : (joinDigits values).length = values.length / 2 := by
  fun_induction joinDigits values with
  | case1 => rfl
  | case2 => simp
  | case3 hi lo rest ih =>
    simp only [List.length_cons, ih]
    omega

theorem bigEndian_joinDigits {values : List UInt8} (heven : values.length % 2 = 0) (h : ∀ v ∈ values, v.toNat < 16) :
    bigEndian 256 ((joinDigits values).map UInt8.toNat) = bigEndian 16 (values.map UInt8.toNat) := by
  fun_induction joinDigits values with
  | case1 => rfl
  | case2 => cases heven
  | case3 hi lo rest ih =>
    simp only [List.length_cons, List.forall_mem_cons] at heven h
    obtain ⟨hhi, hlo, hrest⟩ := h
    have hpower : 256 ^ (rest.length / 2) = 16 ^ rest.length := by
      obtain ⟨n, hn⟩ : ∃ n, rest.length = 2 * n := ⟨rest.length / 2, by omega⟩
      rw [hn, Nat.mul_div_cancel_left _ (by decide), Nat.pow_mul]
    have hbyte : (16 * hi + lo).toNat = 16 * hi.toNat + lo.toNat := by
      simp only [UInt8.toNat_add, UInt8.toNat_mul]
      show (16 * hi.toNat % 256 + lo.toNat) % 256 = _
      omega
    simp only [List.map_cons, bigEndian_cons, ih (by omega) hrest, hbyte, List.length_map, length_joinDigits, hpower,
      List.length_cons]
    ring

theorem exists_of_hexPairs {position : Nat} {digits bytes : Bytes} (h : hexPairs position digits = .ok bytes) :
    ∃ values : List UInt8, digits.map hexValue? = values.map some ∧ values.length = 2 * bytes.length ∧
      bytes = joinDigits values := by
  fun_induction hexPairs position digits generalizing bytes with
  | case1 position =>
    obtain rfl := Except.ok.inj h
    exact ⟨[], rfl, rfl, rfl⟩
  | case5 position hi lo rest vhi vlo hlo hhi bytes' hread ih =>
    obtain rfl := Except.ok.inj h
    obtain ⟨values, hvalues, hlength, rfl⟩ := ih hread
    refine ⟨vhi :: vlo :: values, ?_, ?_, rfl⟩
    · simp [hhi, hlo, hvalues]
    · simp only [List.length_cons, hlength]
      omega
  | _ => cases h

theorem hexPairs_eq_ok {values : List UInt8} (heven : values.length % 2 = 0) {digits : Bytes}
    (h : digits.map hexValue? = values.map some) (position : Nat) :
    hexPairs position digits = .ok (joinDigits values) := by
  fun_induction joinDigits values generalizing digits position with
  | case1 =>
    rw [List.map_eq_nil_iff.1 h]
    rfl
  | case2 => cases heven
  | case3 hi lo rest ih =>
    simp only [List.map_eq_cons_iff, List.map_cons] at h
    obtain ⟨bhi, _, rfl, hhi, blo, digits, rfl, hlo, hrest⟩ := h
    have hread := ih (by simp only [List.length_cons] at heven; omega) hrest (position + 2)
    simp only [hexPairs, hhi, hlo, hread]

/-- The digits of a text are its bytes. -/
theorem map_hexValue?_iff {cs : List Char} {values : List UInt8} :
    (cs.flatMap String.utf8EncodeChar).map hexValue? = values.map some ↔
      cs.map hexDigitValue? = values.map fun v => some v.toNat := by
  have hdigit : ∀ (c : Char) (v : UInt8),
      (hexDigitValue? c).map UInt8.ofNat = some v ↔ hexDigitValue? c = some v.toNat := by
    intro c v
    cases h : hexDigitValue? c with
    | none => simp
    | some n =>
      have hn := lt_of_hexDigitValue? h
      simp only [Option.map_some, Option.some.injEq]
      constructor
      · rintro rfl
        rw [UInt8.toNat_ofNat_of_lt' (Nat.lt_trans hn (by decide))]
      · rintro rfl
        exact UInt8.ofNat_toNat
  induction cs generalizing values with
  | nil => simp
  | cons c cs ih =>
    rw [List.flatMap_cons, List.map_append, List.map_cons]
    rcases utf8EncodeChar_cases c with ⟨b, hb, hvalue⟩ | ⟨hnone, b, rest, hb, hvalue⟩
    · rw [hb, List.map_singleton, List.singleton_append, hvalue]
      cases values with
      | nil => simp
      | cons v values => simp only [List.map_cons, List.cons.injEq, ih, hdigit]
    · rw [hb, hnone, List.map_cons, List.cons_append, hvalue]
      cases values with
      | nil => simp
      | cons v values => simp

/-! ## Digests -/

/-- The number that a text of hexadecimal digits spells; other characters count nothing. -/
def hexNumber (s : String) : Nat := bigEndian 16 (s.toList.filterMap hexDigitValue?)

/-- 64 hexadecimal digits of either case. -/
structure IsDigestText (s : String) : Prop where
  length_eq : s.toList.length = 64
  digits : ∀ c ∈ s.toList, (hexDigitValue? c).isSome = true

/-- The number of a digest, its first byte the most significant. -/
def Digest.number (d : Digest) : Nat := bigEndian 256 (d.bytes.map UInt8.toNat)

theorem Digest.number_inj {d d' : Digest} : d.number = d'.number ↔ d = d' := by
  refine ⟨fun h => ?_, congrArg _⟩
  have hlt : ∀ e : Digest, ∀ n ∈ e.bytes.map UInt8.toNat, n < 256 := by
    intro e n hn
    obtain ⟨b, -, rfl⟩ := List.mem_map.1 hn
    exact b.toNat_lt
  have hnumbers := bigEndian_inj (by decide) (by simp [d.length_bytes, d'.length_bytes]) (hlt d) (hlt d') h
  have hbytes : d.bytes = d'.bytes := (List.map_inj_right fun _ _ => UInt8.toNat_inj.1).1 hnumbers
  cases d
  cases d'
  simpa using hbytes

/-- The values of the digits of a text, all of whose characters are digits. -/
theorem exists_values {cs : List Char} (h : ∀ c ∈ cs, (hexDigitValue? c).isSome = true) :
    ∃ values : List UInt8, cs.map hexDigitValue? = values.map fun v => some v.toNat := by
  induction cs with
  | nil => exact ⟨[], rfl⟩
  | cons c cs ih =>
    obtain ⟨hc, hcs⟩ := List.forall_mem_cons.1 h
    obtain ⟨n, hn⟩ := Option.isSome_iff_exists.1 hc
    obtain ⟨values, hvalues⟩ := ih hcs
    refine ⟨UInt8.ofNat n :: values, ?_⟩
    have hlt : n < 256 := Nat.lt_trans (lt_of_hexDigitValue? hn) (by decide)
    simp [hn, hvalues, Nat.mod_eq_of_lt hlt]

variable {s : String} {values : List UInt8}

theorem lt_of_values (h : s.toList.map hexDigitValue? = values.map fun v => some v.toNat) : ∀ v ∈ values, v.toNat < 16 := by
  intro v hv
  have hmem : some v.toNat ∈ s.toList.map hexDigitValue? := h ▸ List.mem_map_of_mem hv
  obtain ⟨c, -, hc⟩ := List.mem_map.1 hmem
  exact lt_of_hexDigitValue? hc

theorem hexNumber_eq (h : s.toList.map hexDigitValue? = values.map fun v => some v.toNat) :
    hexNumber s = bigEndian 16 (values.map UInt8.toNat) := by
  have hdigits := congrArg (List.filterMap id) h
  simp only [List.filterMap_map, Function.id_comp, List.filterMap_eq_map'] at hdigits
  rw [hexNumber, hdigits]

theorem toList_toUTF8_eq (s : String) : s.toUTF8.toList = s.toList.flatMap String.utf8EncodeChar := by
  rw [← toList_toUTF8, String.ofList_toList]

theorem hexDecode_eq_ok (heven : values.length % 2 = 0)
    (h : s.toList.map hexDigitValue? = values.map fun v => some v.toNat) : hexDecode s = .ok (joinDigits values) := by
  have hbytes := map_hexValue?_iff.2 h
  have hlength := congrArg List.length hbytes
  simp only [List.length_map] at hlength
  rw [hexDecode, toList_toUTF8_eq, hlength, if_neg (by omega)]
  exact hexPairs_eq_ok heven hbytes 0

theorem exists_of_hexDecode {bytes : Bytes} (h : hexDecode s = .ok bytes) :
    ∃ values : List UInt8, s.toList.map hexDigitValue? = values.map (fun v => some v.toNat) ∧
      values.length = 2 * bytes.length ∧ bytes = joinDigits values := by
  rw [hexDecode, toList_toUTF8_eq] at h
  split at h
  · cases h
  · obtain ⟨values, hvalues, hlength, hbytes⟩ := exists_of_hexPairs h
    exact ⟨values, map_hexValue?_iff.1 hvalues, hlength, hbytes⟩

theorem isDigestText_of_hexDecode {d : Digest} (h : hexDecode s = .ok d.bytes) :
    IsDigestText s ∧ d.number = hexNumber s := by
  obtain ⟨values, hvalues, hlength, hbytes⟩ := exists_of_hexDecode h
  rw [d.length_bytes, digestSize] at hlength
  refine ⟨⟨?_, ?_⟩, ?_⟩
  · rw [← List.length_map (f := hexDigitValue?), hvalues, List.length_map, hlength]
  · intro c hc
    have hmem : hexDigitValue? c ∈ values.map fun v => some v.toNat := hvalues ▸ List.mem_map_of_mem hc
    obtain ⟨v, -, hv⟩ := List.mem_map.1 hmem
    rw [← hv]
    rfl
  · rw [Digest.number, hbytes, hexNumber_eq hvalues]
    exact bigEndian_joinDigits (by omega) (lt_of_values hvalues)

theorem exists_digest_of_isDigestText (h : IsDigestText s) : ∃ d : Digest, hexDecode s = .ok d.bytes := by
  obtain ⟨values, hvalues⟩ := exists_values h.digits
  have hcount : values.length = 64 := by simpa [h.length_eq] using (congrArg List.length hvalues).symm
  have hsize : (joinDigits values).length = digestSize := by rw [length_joinDigits, hcount, digestSize]
  exact ⟨⟨joinDigits values, hsize⟩, hexDecode_eq_ok (by omega) hvalues⟩

/-- A text is read as a digest exactly if it is 64 hexadecimal digits of either case that spell the number of the
digest. -/
theorem hexDecode_eq_digest_iff {d : Digest} : hexDecode s = .ok d.bytes ↔ IsDigestText s ∧ d.number = hexNumber s := by
  refine ⟨isDigestText_of_hexDecode, ?_⟩
  rintro ⟨htext, hnumber⟩
  obtain ⟨d', hd'⟩ := exists_digest_of_isDigestText htext
  obtain rfl : d' = d := by rw [← Digest.number_inj, (isDigestText_of_hexDecode hd').2, hnumber]
  exact hd'

end ShardCoding
