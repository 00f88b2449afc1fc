import ShardCoding.Json.Writer
import ShardCoding.Proofs.Json.Digits

/-!
# The tokens of what is written

* `Numeral.Readable`, `Json.Regular` : the values that are written in the grammar of JSON; `Json.tokens` : their tokens;
* `Lexer.Puts`, `Lexer.Writes` : the tokens that a text makes, all of them at its end, or up to a word or a number that the
  next character may still continue;
* `Lexer.puts_quoted`, `Lexer.writes_prettyChars`, `tokenize_pretty` : a string, a value and a whole text.
-/

namespace ShardCoding

/-- A number whose characters spell it. -/
structure Numeral.Readable (n : Numeral) : Prop where
  begins : ∃ c rest, n.chars = c :: rest ∧ (isDigit c = true ∨ c = '-')
  inNumeral : ∀ c ∈ n.chars, Lexer.inNumeral c = true
  ofChars?_eq : Numeral.ofChars? n.chars = some n

theorem Numeral.readable_natDigits (n : Nat) : Numeral.Readable { whole := natDigits n } := by
  have hchars : Numeral.chars { whole := natDigits n } = natDigits n := by
    rw [chars]
    simp
  have hdigits : ∀ c ∈ natDigits n, isDigit c = true := fun c => isDigit_of_mem_natDigits
  refine ⟨?_, ?_, ?_⟩
  · obtain ⟨d, ds, hds⟩ := List.exists_cons_of_ne_nil (natDigits_ne_nil n)
    refine ⟨d, ds, hchars.trans hds, Or.inl (hdigits d ?_)⟩
    rw [hds]
    exact List.mem_cons_self
  · intro c hc
    rw [hchars] at hc
    rw [Lexer.inNumeral, hdigits c hc]
    rfl
  · have hspan : spanDigits (natDigits n) = (natDigits n, []) := by
      have happend : spanDigits (natDigits n ++ []) = (natDigits n, []) := spanDigits_append hdigits (by simp)
      rwa [List.append_nil] at happend
    rw [hchars]
    obtain ⟨d, ds, hds⟩ := List.exists_cons_of_ne_nil (natDigits_ne_nil n)
    have hminus : d ≠ '-' := ne_of_isDigit (hdigits d (by rw [hds]; exact List.mem_cons_self)) (by decide)
    have hzero : d = '0' → ds = [] := by
      rintro rfl
      cases n with
      | zero => exact (List.cons.inj hds).2.symm
      | succ n => exact absurd (congrArg List.head? hds) (head?_natDigits n.succ_pos)
    rw [hds] at hspan ⊢
    unfold Numeral.ofChars?
    simpa [hminus, hspan] using hzero

/-! ## Pieces of a text -/

namespace Lexer

/-- Goes on neither a word nor a number. -/
def delimits (c : Char) : Bool := !inNumeral c && !inWord c

theorem delimits_iff {c : Char} : delimits c = true ↔ inNumeral c = false ∧ inWord c = false := by
  rw [delimits, Bool.and_eq_true, Bool.not_eq_true', Bool.not_eq_true']

/-- Begins with a delimiter. -/
def Delimited (chars : List Char) : Prop := ∃ c rest, chars = c :: rest ∧ delimits c = true

/-- All has been read, but for a word or a number that ends with the next delimiter. -/
structure Ends (l : Lexer) (tokens : List Token) : Prop where
  flush_eq : l.flush = some tokens
  step_eq : ∀ c, delimits c = true → l.step c = start tokens c

/-- The whole text makes `tokens`. -/
def Puts (chars : List Char) (tokens : List Token) : Prop :=
  ∀ before, chars.foldlM step ⟨.between, before⟩ = some ⟨.between, tokens.reverse ++ before⟩

/-- The text makes `tokens` as soon as it has ended. -/
def Writes (chars : List Char) (tokens : List Token) : Prop :=
  ∀ before, ∃ l, chars.foldlM step ⟨.between, before⟩ = some l ∧ l.Ends (tokens.reverse ++ before)

variable {chars chars' : List Char} {tokens tokens' : List Token}

theorem Puts.writes (h : Puts chars tokens) : Writes chars tokens := by
  intro before
  exact ⟨_, h before, rfl, fun _ _ => rfl⟩

theorem Puts.append (h : Puts chars tokens) (h' : Puts chars' tokens') : Puts (chars ++ chars') (tokens ++ tokens') := by
  intro before
  rw [List.foldlM_append, h before, List.reverse_append, List.append_assoc]
  exact h' (tokens.reverse ++ before)

theorem Writes.append (h : Writes chars tokens) (hdelimited : Delimited chars') (h' : Puts chars' tokens') :
    Puts (chars ++ chars') (tokens ++ tokens') := by
  intro before
  obtain ⟨c, rest, rfl, hc⟩ := hdelimited
  obtain ⟨l, hl, hends⟩ := h before
  rw [List.foldlM_append, hl, List.reverse_append, List.append_assoc]
  have hrest := h' (tokens.reverse ++ before)
  show (c :: rest).foldlM step l = _
  rw [List.foldlM_cons] at hrest ⊢
  rwa [hends.step_eq c hc]

theorem puts_lineBreak (depth : Nat) : Puts (Json.lineBreak depth) [] := by
  intro before
  have hblanks : ∀ count, (List.replicate count ' ').foldlM step ⟨.between, before⟩ = some ⟨.between, before⟩ := by
    intro count
    induction count with
    | zero => rfl
    | succ count ih => exact ih
  exact hblanks (2 * depth)

/-- A bracket, a brace, a colon or a comma. -/
theorem puts_mark {c : Char} {token : Token} (h : ∀ before, start before c = some ⟨.between, token :: before⟩) :
    Puts [c] [token] := by
  intro before
  show (start before c).bind some = _
  rw [h before]
  rfl

/-! ## Strings -/

theorem hexDigitValue?_hexChar {n : Nat} (h : n < 16) : hexDigitValue? (hexChar n) = some n := by
  revert n
  decide

/-- One character, escaped or not, inside a string. -/
theorem foldlM_escapeChar (c : Char) (units : List Nat) (before : List Token) :
    (escapeChar c).foldlM step ⟨.string units false, before⟩ = some ⟨.string (c.toNat :: units) false, before⟩ := by
  unfold escapeChar
  split
  · next h => subst h; rfl
  split
  · next h => subst h; rfl
  split
  · next h => subst h; rfl
  split
  · next h => subst h; rfl
  split
  · next h => subst h; rfl
  split
  · next h => subst h; rfl
  split
  · next h => subst h; rfl
  split
  · next hcontrol =>
    have hlt : c.toNat < 32 := hcontrol
    have hhigh := hexDigitValue?_hexChar (n := c.toNat / 16) (by omega)
    have hlow := hexDigitValue?_hexChar (n := c.toNat % 16) (by omega)
    have hzero : hexDigitValue? '0' = some 0 := rfl
    have hvalue : 16 * (c.toNat / 16) + c.toNat % 16 = c.toNat := Nat.div_add_mod _ _
    simp [step, hzero, hhigh, hlow, hvalue]
  · next hquote hbackslash _ _ _ _ _ hcontrol =>
    simp [step, hquote, hbackslash, Char.not_lt.1 hcontrol]

theorem foldlM_escaped (cs : List Char) (units : List Nat) (before : List Token) :
    (cs.flatMap escapeChar).foldlM step ⟨.string units false, before⟩ =
      some ⟨.string ((cs.map Char.toNat).reverse ++ units) false, before⟩ := by
  induction cs generalizing units with
  | nil => rfl
  | cons c cs ih =>
    rw [List.flatMap_cons, List.foldlM_append, foldlM_escapeChar, List.map_cons, List.reverse_cons, List.append_assoc]
    exact ih (c.toNat :: units)

/-- No character is half of a surrogate pair. -/
theorem not_surrogate (c : Char) : isHighSurrogate c.toNat = false ∧ isLowSurrogate c.toNat = false := by
  have hvalid : c.toNat < 0xD800 ∨ 0xDFFF < c.toNat ∧ c.toNat < 0x110000 := c.valid
  simp only [isHighSurrogate, isLowSurrogate, Bool.and_eq_false_iff, decide_eq_false_iff_not]
  omega

theorem joinSurrogates_map (cs : List Char) : joinSurrogates (cs.map Char.toNat) = cs.map Char.toNat := by
  induction cs with
  | nil => rfl
  | cons c cs ih =>
    cases cs with
    | nil => rfl
    | cons c' cs =>
      rw [List.map_cons, List.map_cons, joinSurrogates, (not_surrogate c).1, Bool.false_and, if_neg (by decide)]
      exact congrArg (c.toNat :: ·) ih

theorem ofUnits_map (s : String) : JsonString.ofUnits (s.toList.map Char.toNat) false = .text s := by
  have hany : (s.toList.map Char.toNat).any (fun u => isHighSurrogate u || isLowSurrogate u) = false := by
    rw [List.any_eq_false]
    intro u hu
    obtain ⟨c, -, rfl⟩ := List.mem_map.1 hu
    rw [(not_surrogate c).1, (not_surrogate c).2]
    decide
  have hchars : (s.toList.map Char.toNat).map Char.ofNat = s.toList := by
    rw [List.map_map]
    exact (List.map_congr_left fun c _ => Char.ofNat_toNat c).trans (List.map_id _)
  unfold JsonString.ofUnits
  rw [joinSurrogates_map]
  dsimp only
  rw [hany, hchars, String.ofList_toList]
  rfl

theorem puts_quoted (s : String) : Puts (JsonString.quoted (.text s)) [.string (.text s)] := by
  intro before
  have hopen : step ⟨.between, before⟩ '"' = some ⟨.string [] false, before⟩ := rfl
  have hclose : ∀ units, step ⟨.string units false, before⟩ '"' =
      some ⟨.between, .string (.ofUnits units.reverse false) :: before⟩ := fun _ => rfl
  rw [JsonString.quoted, List.foldlM_cons, hopen]
  show (s.toList.flatMap escapeChar ++ ['"']).foldlM step ⟨.string [] false, before⟩ = _
  rw [List.foldlM_append, foldlM_escaped]
  show (step ⟨.string _ false, before⟩ '"').bind some = _
  rw [hclose, List.append_nil, List.reverse_reverse, ofUnits_map]
  rfl

/-! ## Numbers and words -/

theorem start_numeral {c : Char} (h : isDigit c = true ∨ c = '-') (before : List Token) :
    start before c = some ⟨.numeral [c], before⟩ := by
  rcases h with h | rfl
  · have hne : ∀ d, isDigit d = false → c ≠ d := fun d => ne_of_isDigit h
    simp [start, isBlank, h, hne ' ' (by decide), hne '\n' (by decide), hne '\t' (by decide), hne '\r' (by decide),
      hne '[' (by decide), hne ']' (by decide), hne '\x7b' (by decide), hne '\x7d' (by decide), hne ':' (by decide),
      hne ',' (by decide), hne '"' (by decide)]
  · rfl

theorem foldlM_numeral {cs : List Char} (h : ∀ c ∈ cs, inNumeral c = true) (got : List Char) (before : List Token) :
    cs.foldlM step ⟨.numeral got, before⟩ = some ⟨.numeral (cs.reverse ++ got), before⟩ := by
  induction cs generalizing got with
  | nil => rfl
  | cons c cs ih =>
    have hstep : step ⟨.numeral got, before⟩ c = some ⟨.numeral (c :: got), before⟩ := if_pos (h c List.mem_cons_self)
    rw [List.foldlM_cons, hstep, List.reverse_cons, List.append_assoc]
    exact ih (fun c hc => h c (List.mem_cons_of_mem _ hc)) (c :: got)

theorem writes_numeral {n : Numeral} (h : n.Readable) : Writes n.chars [.number n] := by
  intro before
  obtain ⟨c, rest, hchars, hbegins⟩ := h.begins
  have hrest : ∀ c ∈ rest, inNumeral c = true := by
    intro c hc
    apply h.inNumeral c
    rw [hchars]
    exact List.mem_cons_of_mem _ hc
  have hflush : flush ⟨.numeral (rest.reverse ++ [c]), before⟩ = some (.number n :: before) := by
    have hread := h.ofChars?_eq
    rw [hchars] at hread
    simp [flush, hread]
  refine ⟨⟨.numeral (rest.reverse ++ [c]), before⟩, ?_, hflush, ?_⟩
  · rw [hchars, List.foldlM_cons, step, start_numeral hbegins]
    exact foldlM_numeral hrest [c] before
  · intro d hd
    show (if inNumeral d then _ else (flush _).bind (start · d)) = _
    rw [(delimits_iff.1 hd).1, hflush]
    rfl

theorem writes_word {letters : List Char} {token : Token} (hword : word? letters = some token)
    (hletters : ∀ before, letters.foldlM step ⟨.between, before⟩ = some ⟨.word letters.reverse, before⟩) :
    Writes letters [token] := by
  intro before
  have hflush : flush ⟨.word letters.reverse, before⟩ = some (token :: before) := by
    simp [flush, hword]
  refine ⟨_, hletters before, hflush, ?_⟩
  intro d hd
  show (if inWord d then _ else (flush _).bind (start · d)) = _
  rw [(delimits_iff.1 hd).2, hflush]
  rfl

end Lexer

/-! ## Values -/

namespace Json

/-- Strings of characters only, and numbers that are written as they are read. -/
inductive Regular : Json → Prop where
  | null : Regular .null
  | bool (b : Bool) : Regular (.bool b)
  | number {n : Numeral} (h : n.Readable) : Regular (.number n)
  | text (s : String) : Regular (.string (.text s))
  | array {items : List Json} (h : ∀ v ∈ items, Regular v) : Regular (.array items)
  | object {members : List (JsonString × Json)} (hnames : ∀ m ∈ members, ∃ s, m.1 = .text s)
      (h : ∀ m ∈ members, Regular m.2) : Regular (.object members)

mutual

/-- The tokens that a value is written with. -/
def tokens : Json → List Token
  | .null => [.null]
  | .bool b => [.bool b]
  | .number n => [.number n]
  | .string s => [.string s]
  | .array [] => [.openArray, .closeArray]
  | .array (v :: vs) => .openArray :: (tokens v ++ itemTokens vs ++ [.closeArray])
  | .object [] => [.openObject, .closeObject]
  | .object ((name, v) :: ms) =>
    .openObject :: .string name :: .colon :: (tokens v ++ memberTokens ms ++ [.closeObject])

def itemTokens : List Json → List Token
  | [] => []
  | v :: vs => .comma :: (tokens v ++ itemTokens vs)

def memberTokens : List (JsonString × Json) → List Token
  | [] => []
  | (name, v) :: ms => .comma :: .string name :: .colon :: (tokens v ++ memberTokens ms)

end

end Json

namespace Lexer

variable {vs : List Json} {ms : List (JsonString × Json)}

/-- The items of an array that follow the first, and its end. -/
theorem delimited_items (depth depth' : Nat) (vs : List Json) :
    Delimited (Json.prettyItems depth vs ++ (Json.lineBreak depth' ++ [']'])) := by
  cases vs with
  | nil => exact ⟨'\n', _, rfl, rfl⟩
  | cons v vs => exact ⟨',', _, rfl, rfl⟩

theorem puts_items (h : ∀ v ∈ vs, ∀ depth, Writes (v.prettyChars depth) v.tokens) (depth depth' : Nat) :
    Puts (Json.prettyItems depth vs ++ (Json.lineBreak depth' ++ [']'])) (Json.itemTokens vs ++ [.closeArray]) := by
  induction vs with
  | nil => exact (puts_lineBreak depth').append (puts_mark fun _ => rfl)
  | cons v vs ih =>
    have hrest := ih fun v hv => h v (List.mem_cons_of_mem _ hv)
    have hitem := (h v List.mem_cons_self depth).append (delimited_items depth depth' vs) hrest
    have hcomma : Puts [','] [.comma] := puts_mark fun _ => rfl
    have hall := hcomma.append ((puts_lineBreak depth).append hitem)
    simpa [Json.prettyItems, Json.itemTokens] using hall

/-- The members of an object that follow the first, and its end. -/
theorem delimited_members (depth depth' : Nat) (ms : List (JsonString × Json)) :
    Delimited (Json.prettyMembers depth ms ++ (Json.lineBreak depth' ++ ['\x7d'])) := by
  cases ms with
  | nil => exact ⟨'\n', _, rfl, rfl⟩
  | cons m ms => exact ⟨',', _, rfl, rfl⟩

/-- A name, and what goes between it and its value. -/
theorem puts_name {name : JsonString} (h : ∃ s, name = .text s) :
    Puts (name.quoted ++ [':', ' ']) [.string name, .colon] := by
  obtain ⟨s, rfl⟩ := h
  have hcolon : Puts [':', ' '] [.colon] := fun _ => rfl
  exact (puts_quoted s).append hcolon

theorem puts_members (hnames : ∀ m ∈ ms, ∃ s, m.1 = .text s)
    (h : ∀ m ∈ ms, ∀ depth, Writes (m.2.prettyChars depth) m.2.tokens) (depth depth' : Nat) :
    Puts (Json.prettyMembers depth ms ++ (Json.lineBreak depth' ++ ['\x7d']))
      (Json.memberTokens ms ++ [.closeObject]) := by
  induction ms with
  | nil => exact (puts_lineBreak depth').append (puts_mark fun _ => rfl)
  | cons m ms ih =>
    obtain ⟨name, v⟩ := m
    have hrest := ih (fun m hm => hnames m (List.mem_cons_of_mem _ hm)) fun m hm => h m (List.mem_cons_of_mem _ hm)
    have hvalue := (h _ List.mem_cons_self depth).append (delimited_members depth depth' ms) hrest
    have hcomma : Puts [','] [.comma] := puts_mark fun _ => rfl
    have hname := puts_name (hnames _ List.mem_cons_self)
    have hall := hcomma.append ((puts_lineBreak depth).append (hname.append hvalue))
    simpa [Json.prettyMembers, Json.memberTokens] using hall

theorem writes_prettyChars {v : Json} (h : v.Regular) (depth : Nat) : Writes (v.prettyChars depth) v.tokens := by
  induction h generalizing depth with
  | null => exact writes_word rfl fun _ => rfl
  | bool b =>
    cases b with
    | true => exact writes_word rfl fun _ => rfl
    | false => exact writes_word rfl fun _ => rfl
  | number h => exact writes_numeral h
  | text s => exact (puts_quoted s).writes
  | @array items h ih =>
    apply Puts.writes
    cases items with
    | nil => exact fun _ => rfl
    | cons v vs =>
      have hrest := puts_items (fun v hv => ih v (List.mem_cons_of_mem _ hv)) (depth + 1) depth
      have hitem := (ih v List.mem_cons_self (depth + 1)).append (delimited_items (depth + 1) depth vs) hrest
      have hopen : Puts ['['] [.openArray] := puts_mark fun _ => rfl
      have hall := hopen.append ((puts_lineBreak (depth + 1)).append hitem)
      simpa [Json.prettyChars, Json.tokens] using hall
  | @object members hnames h ih =>
    apply Puts.writes
    cases members with
    | nil => exact fun _ => rfl
    | cons m ms =>
      obtain ⟨name, v⟩ := m
      have hrest := puts_members (fun m hm => hnames m (List.mem_cons_of_mem _ hm))
        (fun m hm => ih m (List.mem_cons_of_mem _ hm)) (depth + 1) depth
      have hvalue := (ih _ List.mem_cons_self (depth + 1)).append (delimited_members (depth + 1) depth ms) hrest
      have hopen : Puts ['\x7b'] [.openObject] := puts_mark fun _ => rfl
      have hname := puts_name (hnames _ List.mem_cons_self)
      have hall := hopen.append ((puts_lineBreak (depth + 1)).append (hname.append hvalue))
      simpa [Json.prettyChars, Json.tokens] using hall

end Lexer

theorem tokenize_pretty {v : Json} (h : v.Regular) : tokenize v.pretty.toList = some v.tokens := by
  obtain ⟨l, hl, hends⟩ := Lexer.writes_prettyChars h 0 []
  have hpretty : v.pretty.toList = v.prettyChars 0 := String.toList_ofList
  unfold tokenize
  rw [hpretty, hl]
  show l.flush.bind (fun tokens => some tokens.reverse) = _
  rw [hends.flush_eq, List.append_nil]
  exact congrArg some (List.reverse_reverse _)

end ShardCoding
