import ShardCoding.Proofs.Json.Digits
import ShardCoding.Time

/-!
# Points in time there and back

* `Instant.padded_spec` : a number in a given width; `Instant.readNumber_padded` : it is read back, whatever follows;
* `Instant.readFraction_fractionText` : the digits of a second, however many are written;
* `Instant.read?_text` : the text of a point in time is read as the point in time.
-/

namespace ShardCoding

theorem isBlank_of_isDigit {c : Char} (h : isDigit c = true) : isBlank c = false := by
  rw [isDigit, Bool.and_eq_true, decide_eq_true_iff, decide_eq_true_iff] at h
  have hlow : 48 ≤ c.toNat := h.1
  have hhigh : c.toNat ≤ 57 := h.2
  unfold isBlank
  simp only [Bool.or_eq_false_iff, Bool.and_eq_false_iff, decide_eq_false_iff_not]
  omega

theorem trimStart_cons {c : Char} (h : isBlank c = false) (cs : List Char) : trimStart (c :: cs) = c :: cs := by
  unfold trimStart
  rw [List.dropWhile_cons, h]
  rfl

namespace Instant

theorem isDigit_of_mem_padded {width n : Nat} {c : Char} (h : c ∈ padded width n) : isDigit c = true := by
  unfold padded at h
  rcases List.mem_append.1 h with hzero | hdigit
  · rw [List.eq_of_mem_replicate hzero]
    rfl
  · exact isDigit_of_mem_natDigits hdigit

theorem length_padded {width n : Nat} (hwidth : 0 < width) (h : n < 10 ^ width) : (padded width n).length = width := by
  have hle := length_natDigits_le hwidth h
  unfold padded
  rw [List.length_append, List.length_replicate]
  omega

theorem digitsValue_padded (width n : Nat) : digitsValue (padded width n) = n :=
  (digitsValue_zeros _ _).trans (digitsValue_natDigits n)

theorem exists_padded_eq_cons {width n : Nat} (hwidth : 0 < width) (h : n < 10 ^ width) :
    ∃ c cs, padded width n = c :: cs ∧ isDigit c = true := by
  have hne : padded width n ≠ [] := by
    intro hnil
    have hlen := length_padded hwidth h
    rw [hnil] at hlen
    exact absurd hlen (Nat.ne_of_lt hwidth)
  obtain ⟨c, cs, hcons⟩ := List.exists_cons_of_ne_nil hne
  refine ⟨c, cs, hcons, isDigit_of_mem_padded (c := c) (?_ : c ∈ padded width n)⟩
  rw [hcons]
  exact List.mem_cons_self

theorem readNumber_padded {width n : Nat} (hwidth : 0 < width) (h : n < 10 ^ width) (rest : List Char) :
    readNumber width (padded width n ++ rest) = some (n, rest) := by
  obtain ⟨c, cs, hcons, hc⟩ := exists_padded_eq_cons hwidth h
  have htrim : trimStart (padded width n ++ rest) = padded width n ++ rest := by
    rw [hcons]
    exact trimStart_cons (isBlank_of_isDigit hc) _
  have htake : (padded width n ++ rest).take width = padded width n := List.take_left' (length_padded hwidth h)
  have hdigits : (padded width n).takeWhile isDigit = padded width n := by
    have happend : (padded width n ++ []).takeWhile isDigit = padded width n ++ [].takeWhile isDigit :=
      List.takeWhile_append_of_pos fun c hc => isDigit_of_mem_padded hc
    simpa using happend
  have hne : ¬ (padded width n).isEmpty = true := by
    rw [hcons]
    exact Bool.false_ne_true
  unfold readNumber
  rw [htrim]
  dsimp only
  rw [htake, hdigits, if_neg hne, digitsValue_padded, List.drop_left]

theorem readMark_cons {mark : Char} (h : isBlank mark = false) (rest : List Char) :
    readMark mark (mark :: rest) = some rest := by
  unfold readMark
  rw [trimStart_cons h]
  exact if_pos rfl

/-- A year that stands without a sign. -/
theorem readYear_yearText {year : Int} (hlow : 0 ≤ year) (hhigh : year ≤ 9999) (rest : List Char) :
    readYear (yearText year ++ rest) = some (year, rest) := by
  have hyear : year.toNat < 10 ^ 4 := by omega
  obtain ⟨c, cs, hcons, hc⟩ := exists_padded_eq_cons (by decide) hyear
  have htext : yearText year = padded 4 year.toNat := if_pos ⟨hlow, hhigh⟩
  have hnumber := readNumber_padded (by decide) hyear rest
  have hminus : c ≠ '-' := ne_of_isDigit hc (by decide)
  have hplus : c ≠ '+' := ne_of_isDigit hc (by decide)
  rw [htext]
  unfold readYear
  rw [hcons, List.cons_append, trimStart_cons (isBlank_of_isDigit hc), ← List.cons_append, ← hcons]
  split
  · next r heq =>
    rw [hcons] at heq
    exact absurd (List.cons.inj heq).1 hminus
  · next r heq =>
    rw [hcons] at heq
    exact absurd (List.cons.inj heq).1 hplus
  · rw [hnumber, Option.map_some]
    dsimp only
    rw [Int.toNat_of_nonneg hlow]

/-- A point and so many digits of a second. -/
theorem readFraction_padded (places n : Nat) (hplaces : 0 < places) (hmost : places ≤ 9) (h : n < 10 ^ places) :
    readFraction ('.' :: padded places n ++ ['Z']) = some (n * 10 ^ (9 - places), ['Z']) := by
  obtain ⟨c, cs, hcons, -⟩ := exists_padded_eq_cons hplaces h
  have hspan : spanDigits (padded places n ++ ['Z']) = (padded places n, ['Z']) := by
    apply spanDigits_append
    · exact fun c hc => isDigit_of_mem_padded hc
    · rintro c hc
      obtain rfl := Option.some.inj hc
      rfl
  have hne : ¬ (padded places n).isEmpty = true := by
    rw [hcons]
    exact Bool.false_ne_true
  have hlen := length_padded hplaces h
  have htake : (padded places n).take 9 = padded places n := List.take_of_length_le (by omega)
  rw [List.cons_append, readFraction, hspan]
  dsimp only
  rw [if_neg hne, htake, digitsValue_padded, hlen]
  rfl

theorem readFraction_fractionText {nano : Nat} (h : nano < 1000000000) :
    readFraction (fractionText nano ++ ['Z']) = some (nano, ['Z']) := by
  unfold fractionText
  split
  · next hzero => rw [hzero]; rfl
  split
  · next hmillis =>
    have hread := readFraction_padded 3 (nano / 1000000) (by decide) (by decide) (by omega)
    rwa [show nano / 1000000 * 10 ^ (9 - 3) = nano by omega] at hread
  split
  · next hmicros =>
    have hread := readFraction_padded 6 (nano / 1000) (by decide) (by decide) (by omega)
    rwa [show nano / 1000 * 10 ^ (9 - 6) = nano by omega] at hread
  · have hread := readFraction_padded 9 nano (by decide) (by decide) (by omega)
    rwa [show nano * 10 ^ (9 - 9) = nano by omega] at hread

theorem daysInMonth_le (year : Int) (month : Nat) : daysInMonth year month ≤ 31 := by
  unfold daysInMonth
  split
  · split <;> decide
  · split <;> decide

/-- What exists of a date and a time of day has two digits. -/
theorem lt_hundred_of_isValid {t : Instant} (h : t.isValid = true) :
    t.month < 10 ^ 2 ∧ t.day < 10 ^ 2 ∧ t.hour < 10 ^ 2 ∧ t.minute < 10 ^ 2 ∧ t.second < 10 ^ 2 ∧
      t.nano < 1000000000 := by
  have hdays := daysInMonth_le t.year t.month
  simp only [isValid, Bool.and_eq_true, decide_eq_true_iff] at h
  omega

/-- A date and a time of day that exist, in a year of four digits. -/
theorem read?_text {t : Instant} (hvalid : t.isValid = true) (hlow : 0 ≤ t.year) (hhigh : t.year ≤ 9999) :
    read? t.text = some t := by
  obtain ⟨hmonth, hday, hhour, hminute, hsecond, hnano⟩ := lt_hundred_of_isValid hvalid
  have hnumber : ∀ {n : Nat}, n < 10 ^ 2 → ∀ rest, readNumber 2 (padded 2 n ++ rest) = some (n, rest) :=
    fun h rest => readNumber_padded (by decide) h rest
  have hdash : ∀ rest, readMark '-' ('-' :: rest) = some rest := readMark_cons (by decide)
  have hcolon : ∀ rest, readMark ':' (':' :: rest) = some rest := readMark_cons (by decide)
  have hoffset : readOffset (trimStart ['Z']) = some (0, []) := rfl
  -- The steps stay in the form `>>=`: the congruence lemma of `Option.bind` visits the rest of the steps at each of them.
  have hstep : ∀ {α : Type} (a : α) (f : α → Option Instant), (some a >>= f) = f a := fun _ _ => rfl
  have hends : ¬ (¬ t.isValid = true ∨ ¬ (trimStart []).isEmpty = true) := by
    rw [hvalid]
    decide
  unfold read? text
  simp only [String.toList_ofList, List.append_assoc, List.cons_append]
  simp only [readYear_yearText hlow hhigh, hdash, hcolon, hnumber hmonth, hnumber hday, hnumber hhour, hnumber hminute,
    hnumber hsecond, readFraction_fractionText hnano, hstep]
  rw [if_pos (Or.inl trivial), hoffset, hstep]
  exact (if_neg hends).trans (if_pos hvalid)

/-- What is read exists: the last step is to check it. -/
theorem isValid_of_read? {s : String} {t : Instant} (h : read? s = some t) : t.isValid = true := by
  have hstep : ∀ {α : Type} {x : Option α} {f : α → Option Instant},
      (x >>= f) = some t ↔ ∃ a, x = some a ∧ f a = some t := Option.bind_eq_some_iff
  unfold read? at h
  simp only [hstep] at h
  obtain ⟨_, -, _, -, _, -, _, -, _, -, h⟩ := h
  split at h
  · split at h
    · simp only [hstep] at h
      obtain ⟨_, -, _, -, _, -, _, -, _, -, _, -, _, -, _, -, h⟩ := h
      split at h
      · cases h
      · split at h
        · next hvalid =>
          obtain rfl := Option.some.inj h
          exact hvalid
        · cases h
    · cases h
  · cases h

end Instant

end ShardCoding
