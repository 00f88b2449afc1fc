import ShardCoding.Json.Record
import ShardCoding.Proofs.Json.RoundTrip
import ShardCoding.Proofs.Time

/-!
# Records there and back

* `Members.Finds` : the fields of a record that were found are those that were written; `Members.exists_of?_record` : so they
  are in a record whose names differ;
* `Json.word?_nat`, `Json.list?_array` : fields of the types that records have; `Json.lt_of_word?`, `Json.forall_of_list?` :
  what is known of a field that was read.
-/

namespace ShardCoding

namespace Json

/-! ## Values of fields -/

theorem word?_nat {limit n : Nat} (h : n < limit) : word? limit (nat n) = some n := by
  have hlimit : ¬ limit ≤ digitsValue (natDigits n) := by
    rw [digitsValue_natDigits]
    exact Nat.not_le.2 h
  show Numeral.word? limit { whole := natDigits n } = some n
  unfold Numeral.word?
  dsimp only
  rw [digitsValue_natDigits] at hlimit ⊢
  rw [if_neg]
  simpa using hlimit

theorem lt_of_word? {limit n : Nat} {v : Json} (h : v.word? limit = some n) : n < limit := by
  cases v with
  | number m =>
    have h : Numeral.word? limit m = some n := h
    unfold Numeral.word? at h
    dsimp only at h
    split at h
    · cases h
    · next hguard =>
      obtain rfl := Option.some.inj h
      simp only [not_or, Nat.not_le] at hguard
      exact hguard.2.2.2
  | _ => cases h

theorem instant?_ofInstant (t : Instant) : instant? (ofInstant t) = Instant.read? t.text := by
  have htext : (ofInstant t).text? = some t.text := rfl
  rw [instant?, htext, Option.bind_some]

theorem isValid_of_instant? {v : Json} {t : Instant} (h : v.instant? = some t) : t.isValid = true := by
  rw [instant?, Option.bind_eq_some_iff] at h
  obtain ⟨s, -, hs⟩ := h
  exact Instant.isValid_of_read? hs

variable {α : Type} {item : Json → Option α} {write : α → Json}

theorem list?_array {l : List α} (h : ∀ a ∈ l, item (write a) = some a) : list? item (array (l.map write)) = some l := by
  show (l.map write).mapM item = some l
  induction l with
  | nil => rfl
  | cons a l ih =>
    rw [List.map_cons, List.mapM_cons, h a List.mem_cons_self, ih fun a ha => h a (List.mem_cons_of_mem _ ha)]
    rfl

theorem forall_of_list? {p : α → Prop} (hitem : ∀ v a, item v = some a → p a) {v : Json} {l : List α}
    (h : list? item v = some l) : ∀ a ∈ l, p a := by
  cases v with
  | array items =>
    replace h : items.mapM item = some l := h
    induction items generalizing l with
    | nil =>
      obtain rfl := Option.some.inj h
      simp
    | cons v items ih =>
      rw [List.mapM_cons, Option.bind_eq_bind, Option.bind_eq_some_iff] at h
      obtain ⟨a, ha, h⟩ := h
      rw [Option.bind_eq_bind, Option.bind_eq_some_iff] at h
      obtain ⟨l', hl', h⟩ := h
      obtain rfl := Option.some.inj h
      exact List.forall_mem_cons.2 ⟨hitem v a ha, ih hl'⟩
  | _ => cases h

/-! ## Regular records -/

attribute [simp] Regular.bool

@[simp] theorem regular_nat (n : Nat) : Regular (nat n) := .number (Numeral.readable_natDigits n)

@[simp] theorem regular_str (s : String) : Regular (str s) := .text s

@[simp] theorem regular_ofInstant (t : Instant) : Regular (ofInstant t) := .text t.text

theorem regular_array {l : List α} (h : ∀ a, Regular (write a)) : Regular (array (l.map write)) := by
  apply Regular.array
  intro v hv
  obtain ⟨a, -, rfl⟩ := List.mem_map.1 hv
  exact h a

theorem regular_record {members : List (String × Json)} (h : ∀ m ∈ members, Regular m.2) : Regular (record members) := by
  apply Regular.object
  · intro m hm
    obtain ⟨m', -, rfl⟩ := List.mem_map.1 hm
    exact ⟨_, rfl⟩
  · intro m hm
    obtain ⟨m', hm', rfl⟩ := List.mem_map.1 hm
    exact h m' hm'

end Json

/-! ## Fields -/

namespace Members

/-- The values found are those of `members`. -/
structure Finds (m : Members) (members : List (String × Json)) : Prop where
  value?_eq : ∀ name v, (name, v) ∈ members → m.value? name = some v
  absent : ∀ name, name ∉ members.map Prod.fst → m.value? name = none

theorem foldlM_addNamed {fields : List String} {members found : List (String × Json)}
    (hfields : ∀ m ∈ members, m.1 ∈ fields) (hnodup : (members.map Prod.fst).Nodup)
    (hnew : ∀ m ∈ members, ∀ f ∈ found, f.1 ≠ m.1) :
    (members.map fun (name, v) => (JsonString.text name, v)).foldlM (addNamed fields) found =
      some (members.reverse ++ found) := by
  induction members generalizing found with
  | nil => rfl
  | cons m members ih =>
    obtain ⟨name, v⟩ := m
    rw [List.map_cons, List.nodup_cons] at hnodup
    have hname : name ∈ fields := hfields _ List.mem_cons_self
    have hany : found.any (fun f => decide (f.1 = name)) = false := by
      rw [List.any_eq_false]
      intro f hf
      simpa using hnew _ List.mem_cons_self f hf
    have hadd : addNamed fields found (.text name, v) = some ((name, v) :: found) := by
      rw [addNamed, if_pos hname, hany]
      rfl
    have hnext : ∀ m ∈ members, ∀ f ∈ (name, v) :: found, f.1 ≠ m.1 := by
      intro m hm f hf
      rcases List.mem_cons.1 hf with rfl | hf
      · rintro rfl
        exact hnodup.1 (List.mem_map.2 ⟨m, hm, rfl⟩)
      · exact hnew m (List.mem_cons_of_mem _ hm) f hf
    rw [List.map_cons, List.foldlM_cons, hadd, List.reverse_cons, List.append_assoc]
    exact ih (fun m hm => hfields m (List.mem_cons_of_mem _ hm)) hnodup.2 hnext

theorem find?_of_nodup {members : List (String × Json)} (hnodup : (members.map Prod.fst).Nodup) {name : String} {v : Json}
    (h : (name, v) ∈ members) : members.find? (·.1 = name) = some (name, v) := by
  induction members with
  | nil => cases h
  | cons m members ih =>
    rw [List.map_cons, List.nodup_cons] at hnodup
    rw [List.find?_cons]
    rcases List.mem_cons.1 h with rfl | h
    · simp
    · have hne : m.1 ≠ name := by
        rintro rfl
        exact hnodup.1 (List.mem_map.2 ⟨_, h, rfl⟩)
      simpa [hne] using ih hnodup.2 h

theorem exists_of?_record {fields : List String} {members : List (String × Json)} (hfields : ∀ m ∈ members, m.1 ∈ fields)
    (hnodup : (members.map Prod.fst).Nodup) : ∃ m, of? fields (.record members) = some m ∧ m.Finds members := by
  have hfold : (members.map fun (name, v) => (JsonString.text name, v)).foldlM (addNamed fields) [] =
      some (members.reverse ++ []) := foldlM_addNamed hfields hnodup (by simp)
  refine ⟨⟨members.reverse, true⟩, ?_, ?_, ?_⟩
  · show ((members.map _).foldlM (addNamed fields) []).map _ = _
    rw [hfold, List.append_nil]
    rfl
  · intro name v h
    have hnodup' : (members.reverse.map Prod.fst).Nodup := by
      rw [List.map_reverse]
      exact List.pairwise_reverse.2 (hnodup.imp Ne.symm)
    have hfind := find?_of_nodup hnodup' (List.mem_reverse.2 h)
    rw [value?, hfind]
    rfl
  · intro name h
    have hfind : members.reverse.find? (·.1 = name) = none := by
      rw [List.find?_eq_none]
      intro f hf hname
      exact h (List.mem_map.2 ⟨f, List.mem_reverse.1 hf, of_decide_eq_true hname⟩)
    rw [value?, hfind]
    rfl

variable {α : Type} {m : Members} {members : List (String × Json)} {name : String} {value : Json → Option α}

theorem Finds.required_eq (h : m.Finds members) {v : Json} {a : α} (hmem : (name, v) ∈ members)
    (hvalue : value v = some a) : m.required name value = some a := by
  rw [required, h.value?_eq name v hmem, Option.bind_some, hvalue]

theorem Finds.withDefault_eq (h : m.Finds members) {v : Json} {a : α} (hmem : (name, v) ∈ members)
    (hvalue : value v = some a) (default : α) : m.withDefault name default value = some a := by
  rw [withDefault, h.value?_eq name v hmem]
  exact hvalue

theorem Finds.withDefault_absent (h : m.Finds members) (habsent : name ∉ members.map Prod.fst) (default : α) :
    m.withDefault name default value = some default := by
  rw [withDefault, h.absent name habsent]

variable {p : α → Prop} {a : α}

/-- What holds of all values of a field holds of the one that was read. -/
theorem of_required (hvalue : ∀ v a, value v = some a → p a) (h : m.required name value = some a) : p a := by
  rw [required, Option.bind_eq_some_iff] at h
  obtain ⟨v, -, hv⟩ := h
  exact hvalue v a hv

theorem of_withDefault {default : α} (hdefault : p default) (hvalue : ∀ v a, value v = some a → p a)
    (h : m.withDefault name default value = some a) : p a := by
  unfold withDefault at h
  split at h
  · obtain rfl := Option.some.inj h
    exact hdefault
  · next v hv => exact hvalue v a h

end Members

end ShardCoding
