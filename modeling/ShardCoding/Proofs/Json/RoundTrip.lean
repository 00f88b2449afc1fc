import ShardCoding.Json.Reader
import ShardCoding.Proofs.Json.Tokens

/-!
# Values there and back

* `JsonReader.Reads` : tokens that are read as one value, whatever it stands in; `JsonReader.reads_tokens` : the tokens of a
  value are;
* `Json.parse?_pretty` : the text of a value is read as the value.
-/

namespace ShardCoding

namespace JsonReader

/-- The tokens are read as the value `v`. -/
def Reads (tokens : List Token) (v : Json) : Prop :=
  ∀ outer, tokens.foldlM step ⟨.value, outer⟩ = some ⟨.after v, outer⟩

theorem exists_tokens_eq_cons (v : Json) : ∃ t rest, v.tokens = t :: rest ∧ t ≠ .closeArray := by
  cases v with
  | array items => cases items <;> exact ⟨.openArray, _, rfl, nofun⟩
  | object members => cases members <;> exact ⟨.openObject, _, rfl, nofun⟩
  | _ => exact ⟨_, _, rfl, nofun⟩

theorem step_itemOrEnd {t : Token} (ht : t ≠ .closeArray) (outer : List OpenValue) :
    step ⟨.itemOrEnd, outer⟩ t = step ⟨.value, outer⟩ t := by
  cases t with
  | closeArray => exact absurd rfl ht
  | _ => rfl

/-- The first item of an array. -/
theorem foldlM_first {v : Json} (h : Reads v.tokens v) (outer : List OpenValue) :
    v.tokens.foldlM step ⟨.itemOrEnd, outer⟩ = some ⟨.after v, outer⟩ := by
  obtain ⟨t, rest, heq, ht⟩ := exists_tokens_eq_cons v
  have hread := h outer
  rw [heq, List.foldlM_cons] at hread ⊢
  rwa [step_itemOrEnd ht]

/-- The items that follow `v`, and the end of the array. -/
theorem foldlM_items {vs : List Json} (h : ∀ v ∈ vs, Reads v.tokens v) (got : List Json) (v : Json)
    (outer : List OpenValue) :
    (Json.itemTokens vs ++ [Token.closeArray]).foldlM step ⟨.after v, .array got :: outer⟩ =
      some ⟨.after (.array ((v :: got).reverse ++ vs)), outer⟩ := by
  induction vs generalizing got v with
  | nil =>
    rw [List.append_nil]
    rfl
  | cons w vs ih =>
    have hw := h w List.mem_cons_self (.array (v :: got) :: outer)
    rw [Json.itemTokens, List.cons_append, List.append_assoc, List.foldlM_cons]
    show (w.tokens ++ (Json.itemTokens vs ++ [Token.closeArray])).foldlM step ⟨.value, .array (v :: got) :: outer⟩ = _
    rw [List.foldlM_append, hw]
    refine (ih (fun v hv => h v (List.mem_cons_of_mem _ hv)) (v :: got) w).trans ?_
    rw [List.reverse_cons (a := w), List.append_assoc]
    rfl

/-- The members that follow one, and the end of the object. -/
theorem foldlM_members {ms : List (JsonString × Json)} (h : ∀ m ∈ ms, Reads m.2.tokens m.2)
    (got : List (JsonString × Json)) (name : JsonString) (v : Json) (outer : List OpenValue) :
    (Json.memberTokens ms ++ [Token.closeObject]).foldlM step ⟨.after v, .object got name :: outer⟩ =
      some ⟨.after (.object (((name, v) :: got).reverse ++ ms)), outer⟩ := by
  induction ms generalizing got name v with
  | nil =>
    rw [List.append_nil]
    rfl
  | cons m ms ih =>
    obtain ⟨name', w⟩ := m
    have hw := h _ List.mem_cons_self (.object ((name, v) :: got) name' :: outer)
    rw [Json.memberTokens, List.cons_append, List.cons_append, List.cons_append, List.append_assoc]
    show (w.tokens ++ (Json.memberTokens ms ++ [Token.closeObject])).foldlM step
      ⟨.value, .object ((name, v) :: got) name' :: outer⟩ = _
    rw [List.foldlM_append, hw]
    refine (ih (fun m hm => h m (List.mem_cons_of_mem _ hm)) ((name, v) :: got) name' w).trans ?_
    rw [List.reverse_cons (a := (name', w)), List.append_assoc]
    rfl

theorem reads_tokens {v : Json} (h : v.Regular) : Reads v.tokens v := by
  induction h with
  | null => exact fun _ => rfl
  | bool b => exact fun _ => rfl
  | number h => exact fun _ => rfl
  | text s => exact fun _ => rfl
  | @array items h ih =>
    intro outer
    cases items with
    | nil => rfl
    | cons v vs =>
      rw [Json.tokens, List.append_assoc]
      show (v.tokens ++ (Json.itemTokens vs ++ [Token.closeArray])).foldlM step ⟨.itemOrEnd, .array [] :: outer⟩ = _
      rw [List.foldlM_append, foldlM_first (ih v List.mem_cons_self)]
      exact foldlM_items (fun v hv => ih v (List.mem_cons_of_mem _ hv)) [] v outer
  | @object members hnames h ih =>
    intro outer
    cases members with
    | nil => rfl
    | cons m ms =>
      obtain ⟨name, v⟩ := m
      rw [Json.tokens, List.append_assoc]
      show (v.tokens ++ (Json.memberTokens ms ++ [Token.closeObject])).foldlM step ⟨.value, .object [] name :: outer⟩ = _
      rw [List.foldlM_append, ih _ List.mem_cons_self]
      exact foldlM_members (fun m hm => ih m (List.mem_cons_of_mem _ hm)) [] name v outer

end JsonReader

/-- What is written of a value is read as the value. -/
theorem Json.parse?_pretty {v : Json} (h : v.Regular) : Json.parse? v.pretty = some v := by
  unfold parse?
  rw [tokenize_pretty h, Option.bind_some, ofTokens?, JsonReader.reads_tokens h []]
  rfl

end ShardCoding
