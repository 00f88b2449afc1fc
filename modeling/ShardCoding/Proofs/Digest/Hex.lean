import ShardCoding.Digest.Basic

/-!
# Hexadecimal text there and back

* `toList_toUTF8` : the bytes of a text are those of its characters, one after another;
* `hexDecode_hexEncode` : the digits written for some bytes spell these bytes.
-/

namespace ShardCoding

theorem toList_loop (b : ByteArray) (i : Nat) (got : Bytes) :
    ByteArray.toList.loop b i got = got.reverse ++ b.data.toList.drop i := by
  fun_induction ByteArray.toList.loop b i got with
  | case1 i got hlt ih =>
    have hi : i < b.data.toList.length := hlt
    have hget : b.get! i = b.data.toList[i] := getElem!_pos b.data i hlt
    rw [ih, List.drop_eq_getElem_cons hi, hget, List.reverse_cons, List.append_assoc]
    rfl
  | case2 i got hge => rw [List.drop_eq_nil_of_le (Nat.not_lt.1 hge), List.append_nil]

theorem toList_toUTF8 (chars : List Char) :
    (String.ofList chars).toUTF8.toList = chars.flatMap String.utf8EncodeChar := by
  show ByteArray.toList.loop (chars.flatMap String.utf8EncodeChar).toByteArray 0 [] = _
  rw [toList_loop, List.drop_zero, List.reverse_nil, List.nil_append]
  exact List.toList_data_toByteArray

/-- Sixteen digits, each a single byte that is read as its value. -/
theorem hexDigit_cases {n : UInt8} (h : n < 16) :
    ∃ b, String.utf8EncodeChar (hexDigit n) = [b] ∧ hexValue? b = some n := by
  have hall : ∀ k < 16, String.utf8EncodeChar (hexDigit (UInt8.ofNat k)) = [(hexDigit (UInt8.ofNat k)).val.toUInt8] ∧
      hexValue? (hexDigit (UInt8.ofNat k)).val.toUInt8 = some (UInt8.ofNat k) := by decide
  have hn := hall n.toNat (UInt8.lt_iff_toNat_lt.1 h)
  rw [UInt8.ofNat_toNat] at hn
  exact ⟨_, hn⟩

theorem join_halves (x : UInt8) : 16 * (x / 16) + x % 16 = x := by
  apply UInt8.toNat_inj.1
  have hx := x.toNat_lt
  simp only [UInt8.toNat_add, UInt8.toNat_mul, UInt8.toNat_div, UInt8.toNat_mod]
  show (16 * (x.toNat / 16) % 256 + x.toNat % 16) % 256 = x.toNat
  omega

/-- The bytes of the hexadecimal text of some bytes. -/
def hexText (bytes : Bytes) : Bytes :=
  (bytes.flatMap fun x => [hexDigit (x / 16), hexDigit (x % 16)]).flatMap String.utf8EncodeChar

theorem hexText_cons (x : UInt8) (bytes : Bytes) :
    ∃ hi lo, hexText (x :: bytes) = hi :: lo :: hexText bytes ∧ hexValue? hi = some (x / 16) ∧
      hexValue? lo = some (x % 16) := by
  have hhigh : x / 16 < 16 := by
    have hx := x.toNat_lt
    rw [UInt8.lt_iff_toNat_lt, UInt8.toNat_div]
    show x.toNat / 16 < 16
    omega
  have hlow : x % 16 < 16 := by
    rw [UInt8.lt_iff_toNat_lt, UInt8.toNat_mod]
    exact Nat.mod_lt _ (by decide)
  obtain ⟨hi, hhi, hvalue⟩ := hexDigit_cases hhigh
  obtain ⟨lo, hlo, hvalue'⟩ := hexDigit_cases hlow
  refine ⟨hi, lo, ?_, hvalue, hvalue'⟩
  unfold hexText
  rw [List.flatMap_cons, List.flatMap_append, List.flatMap_cons, List.flatMap_singleton, hhi, hlo]
  rfl

theorem length_hexText (bytes : Bytes) : (hexText bytes).length = 2 * bytes.length := by
  induction bytes with
  | nil => rfl
  | cons x bytes ih =>
    obtain ⟨hi, lo, hcons, -, -⟩ := hexText_cons x bytes
    simp only [hcons, List.length_cons, ih]
    omega

theorem hexPairs_hexText (bytes : Bytes) (position : Nat) : hexPairs position (hexText bytes) = .ok bytes := by
  induction bytes generalizing position with
  | nil => rfl
  | cons x bytes ih =>
    obtain ⟨hi, lo, hcons, hhi, hlo⟩ := hexText_cons x bytes
    rw [hcons, hexPairs, hhi, hlo]
    dsimp only
    rw [ih]
    simp only [join_halves]

theorem hexDecode_hexEncode (bytes : Bytes) : hexDecode (hexEncode bytes) = .ok bytes := by
  have htext : (hexEncode bytes).toUTF8.toList = hexText bytes := toList_toUTF8 _
  have heven : ¬ (hexText bytes).length % 2 = 1 := by
    rw [length_hexText]
    omega
  unfold hexDecode
  rw [htext]
  exact (if_neg heven).trans (hexPairs_hexText bytes 0)

end ShardCoding
