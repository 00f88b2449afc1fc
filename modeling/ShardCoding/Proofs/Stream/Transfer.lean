import ShardCoding.Stream.DigestSink

/-!
# What a transfer does

What any transfer does to its endpoints, which may fail at any call, and where the blame is for one that fails.

* `Source.Hands` : a source after some bytes were handed out; `Source.Broken`, `Source.AtEnd` : its last call failed, or
  handed out nothing; `Source.hands_of_readUpTo`, `broken_of_readUpTo` : a transfer comes back short only with a source
  at its end, and fails only with a broken one;
* `Sink.Takes` : a sink after it took some bytes; `Sink.takes_writeAll` : the front of what is poured into it;
  `Sink.Broken`, `Sink.broken_of_writeAll` : all of it unless the last call failed or took nothing;
* `DigestSink.writeAll_inner` : a digesting sink writes as the sink inside does.
-/

namespace ShardCoding

/-! ## Sources -/

namespace Source

/-- `s'` is `s` after it handed out `bytes`. -/
structure Hands (s : Source) (bytes : Bytes) (s' : Source) : Prop where
  rest_eq : s.rest = bytes ++ s'.rest
  consumed_eq : s'.consumed = s.consumed + bytes.length
  pacing_eq : s'.pacing = s.pacing

/-- The last call on `s` failed with `kind`. -/
def Broken (s : Source) (kind : IoKind) : Prop :=
  ∃ calls, s.calls = calls + 1 ∧ s.pacing.turn calls s.consumed = .fails kind

/-- The last call on `s` was for some bytes and handed out none, without a failure. -/
def AtEnd (s : Source) : Prop :=
  ∃ calls, s.calls = calls + 1 ∧
    (s.pacing.turn calls s.consumed = .atMost 0 ∨
      s.rest = [] ∧ ∀ kind, s.pacing.turn calls s.consumed ≠ .fails kind)

variable {s s' s'' : Source} {want : Nat}

theorem Hands.refl (s : Source) : s.Hands [] s := ⟨rfl, rfl, rfl⟩

theorem Hands.trans {front back : Bytes} (h : s.Hands front s') (h' : s'.Hands back s'') :
    s.Hands (front ++ back) s'' where
  rest_eq := by rw [h.rest_eq, h'.rest_eq, List.append_assoc]
  consumed_eq := by rw [h'.consumed_eq, h.consumed_eq, List.length_append, Nat.add_assoc]
  pacing_eq := h'.pacing_eq.trans h.pacing_eq

theorem AtEnd.not_broken (h : s.AtEnd) (kind : IoKind) : ¬ s.Broken kind := by
  rintro ⟨calls, hcalls, hturn⟩
  obtain ⟨calls', hcalls', hend⟩ := h
  obtain rfl : calls = calls' := by omega
  rcases hend with hnone | ⟨-, hkind⟩
  · rw [hnone] at hturn
    cases hturn
  · exact hkind kind hturn

/-- A source that hands out something in every call is at its end only when nothing is left. -/
theorem AtEnd.rest_eq_nil (h : s.AtEnd) (hmoves : ∀ calls moved, s.pacing.turn calls moved ≠ .atMost 0) :
    s.rest = [] := by
  obtain ⟨calls, -, hnone | ⟨hrest, -⟩⟩ := h
  · exact absurd hnone (hmoves _ _)
  · exact hrest

theorem hands_advance {piece : Bytes} (h : piece <+: s.rest) : s.Hands piece (s.advance piece) :=
  ⟨(List.prefix_iff_eq_append.1 h).symm, rfl, rfl⟩

theorem read_cases (hwant : want ≠ 0) (s : Source) :
    (s.read want).1 = .interrupted ∧ s.Hands [] (s.read want).2 ∨
    (∃ kind, (s.read want).1 = .failed kind ∧ s.Hands [] (s.read want).2 ∧ (s.read want).2.Broken kind) ∨
    ∃ piece, (s.read want).1 = .done piece ∧ s.Hands piece (s.read want).2 ∧ piece.length ≤ want ∧
      (piece = [] → (s.read want).2.AtEnd) := by
  unfold read
  split
  · exact Or.inl ⟨rfl, rfl, rfl, rfl⟩
  · right
    rw [if_neg hwant]
    split
    · next kind hturn =>
      exact Or.inl ⟨kind, rfl, hands_advance List.nil_prefix, s.calls, rfl, hturn⟩
    · next most hturn =>
      right
      refine ⟨_, rfl, hands_advance (List.take_prefix _ _), ?_, fun hnil => ⟨s.calls, rfl, ?_⟩⟩
      · exact Nat.le_trans (List.length_take_le _ _) (Nat.min_le_left ..)
      · rw [hnil]
        rcases List.take_eq_nil_iff.1 hnil with hzero | hrest
        · obtain rfl : most = 0 := by omega
          exact Or.inl hturn
        · refine Or.inr ⟨hrest, fun kind hkind => ?_⟩
          exact Turn.noConfusion (hturn.symm.trans hkind)
    · next hturn =>
      right
      refine ⟨_, rfl, hands_advance (List.take_prefix _ _), List.length_take_le _ _, fun hnil => ⟨s.calls, rfl, ?_⟩⟩
      rw [hnil]
      refine Or.inr ⟨(List.take_eq_nil_iff.1 hnil).resolve_left hwant, fun kind hkind => ?_⟩
      exact Turn.noConfusion (hturn.symm.trans hkind)

theorem readThrough_cases (hwant : want ≠ 0) (s : Source) :
    (∃ kind, (s.readThrough want).1 = .error kind ∧ s.Hands [] (s.readThrough want).2 ∧
      (s.readThrough want).2.Broken kind) ∨
    ∃ piece, (s.readThrough want).1 = .ok piece ∧ s.Hands piece (s.readThrough want).2 ∧ piece.length ≤ want ∧
      (piece = [] → (s.readThrough want).2.AtEnd) := by
  fun_induction readThrough want s with
  | case1 s piece s₁ hr =>
    rcases read_cases hwant s with ⟨hread, -⟩ | ⟨kind, hread, -⟩ | ⟨piece', hread, hhands, hlen, hend⟩ <;>
      rw [hr] at hread <;> cases hread
    rw [hr] at hhands hend
    exact Or.inr ⟨piece, rfl, hhands, hlen, hend⟩
  | case2 s kind s₁ hr =>
    rcases read_cases hwant s with ⟨hread, -⟩ | ⟨kind', hread, hhands, hbroken⟩ | ⟨piece, hread, -⟩ <;>
      rw [hr] at hread <;> cases hread
    rw [hr] at hhands hbroken
    exact Or.inl ⟨kind, rfl, hhands, hbroken⟩
  | case3 s s₁ hr ih =>
    rcases read_cases hwant s with ⟨-, hhands⟩ | ⟨kind, hread, -⟩ | ⟨piece, hread, -⟩
    · rw [hr] at hhands
      rcases ih with ⟨kind, hrun, hhands', hbroken⟩ | ⟨piece, hrun, hhands', hlen, hend⟩
      · exact Or.inl ⟨kind, hrun, hhands.trans hhands', hbroken⟩
      · exact Or.inr ⟨piece, hrun, hhands.trans hhands', hlen, hend⟩
    all_goals
      rw [hr] at hread
      cases hread

theorem go_cases (want : Nat) (got : Bytes) (s : Source) :
    ∃ bytes, s.Hands bytes (readUpTo.go want got s).2 ∧ bytes.length ≤ want ∧
      ((∃ kind, (readUpTo.go want got s).1 = .error kind ∧ (readUpTo.go want got s).2.Broken kind) ∨
        (readUpTo.go want got s).1 = .ok (got.reverse ++ bytes) ∧
          (bytes.length < want → (readUpTo.go want got s).2.AtEnd)) := by
  fun_induction readUpTo.go want got s with
  | case1 got s =>
    refine ⟨[], .refl s, Nat.zero_le _, Or.inr ⟨by rw [List.append_nil], fun hlt => ?_⟩⟩
    exact absurd hlt (Nat.lt_irrefl 0)
  | case2 want got s hw kind s₁ hr =>
    rcases readThrough_cases hw s with ⟨kind', hrun, hhands, hbroken⟩ | ⟨piece, hrun, -⟩ <;> rw [hr] at hrun <;>
      cases hrun
    rw [hr] at hhands hbroken
    exact ⟨[], hhands, Nat.zero_le _, Or.inl ⟨kind, rfl, hbroken⟩⟩
  | case3 want got s hw s₁ hr =>
    rcases readThrough_cases hw s with ⟨kind', hrun, -⟩ | ⟨piece, hrun, hhands, -, hend⟩ <;> rw [hr] at hrun <;>
      cases hrun
    rw [hr] at hhands hend
    exact ⟨[], hhands, Nat.zero_le _, Or.inr ⟨by rw [List.append_nil], fun _ => hend rfl⟩⟩
  | case4 want got s hw b piece s₁ hr ih =>
    rcases readThrough_cases hw s with ⟨kind', hrun, -⟩ | ⟨piece', hrun, hhands, hlen, -⟩ <;> rw [hr] at hrun <;>
      cases hrun
    rw [hr] at hhands
    obtain ⟨bytes, hhands', hlen', hcases⟩ := ih
    rw [List.length_cons] at hlen
    refine ⟨(b :: piece) ++ bytes, hhands.trans hhands', ?_, ?_⟩
    · rw [List.length_append, List.length_cons]
      omega
    · rcases hcases with ⟨kind, hrun', hbroken⟩ | ⟨hrun', hend⟩
      · exact Or.inl ⟨kind, hrun', hbroken⟩
      · refine Or.inr ⟨?_, fun hlt => hend ?_⟩
        · rw [hrun', List.reverseAux_eq]
          simp
        · rw [List.length_append, List.length_cons] at hlt
          omega

/-- A transfer that comes back short leaves the source at its end. -/
theorem hands_of_readUpTo {bytes : Bytes} (h : s.readUpTo want = (.ok bytes, s')) :
    s.Hands bytes s' ∧ bytes.length ≤ want ∧ (bytes.length < want → s'.AtEnd) := by
  obtain ⟨bytes', hhands, hle, ⟨kind, herr, -⟩ | ⟨hok, hend⟩⟩ := go_cases want [] s
  · rw [← readUpTo, h] at herr
    cases herr
  · rw [← readUpTo, h] at hok hhands hend
    obtain rfl := Except.ok.inj hok
    exact ⟨hhands, hle, hend⟩

/-- A failure is that of the last call, and the bytes handed out before it are lost. -/
theorem broken_of_readUpTo {kind : IoKind} (h : s.readUpTo want = (.error kind, s')) :
    (∃ bytes, s.Hands bytes s') ∧ s'.Broken kind := by
  obtain ⟨bytes, hhands, -, ⟨kind', herr, hbroken⟩ | ⟨hok, -⟩⟩ := go_cases want [] s
  · rw [← readUpTo, h] at herr hhands hbroken
    obtain rfl := Except.error.inj herr
    exact ⟨⟨bytes, hhands⟩, hbroken⟩
  · rw [← readUpTo, h] at hok
    cases hok

end Source

/-! ## Sinks -/

namespace Sink

/-- `s'` is `s` after it took `bytes`. -/
structure Takes (s : Sink) (bytes : Bytes) (s' : Sink) : Prop where
  content_eq : s'.content = s.content ++ bytes
  pacing_eq : s'.pacing = s.pacing
  flushFault_eq : s'.flushFault = s.flushFault

variable {s s' s'' : Sink} {data : Bytes}

theorem Takes.refl (s : Sink) : s.Takes [] s := ⟨(List.append_nil _).symm, rfl, rfl⟩

theorem Takes.trans {front back : Bytes} (h : s.Takes front s') (h' : s'.Takes back s'') :
    s.Takes (front ++ back) s'' :=
  ⟨by rw [h'.content_eq, h.content_eq, List.append_assoc], h'.pacing_eq.trans h.pacing_eq,
    h'.flushFault_eq.trans h.flushFault_eq⟩

theorem takes_advance (s : Sink) (piece : Bytes) : s.Takes piece (s.advance piece) :=
  ⟨by simp [advance, content], rfl, rfl⟩

theorem takes_write (data : Bytes) (s : Sink) :
    (∃ n, n ≤ data.length ∧ (s.write data).1 = .done n ∧ s.Takes (data.take n) (s.write data).2) ∨
    (∀ n, (s.write data).1 ≠ .done n) ∧ s.Takes [] (s.write data).2 := by
  unfold write
  split
  · exact Or.inr ⟨fun _ => nofun, ⟨(List.append_nil _).symm, rfl, rfl⟩⟩
  · split
    · exact Or.inl ⟨0, Nat.zero_le _, rfl, takes_advance s []⟩
    · split
      · exact Or.inr ⟨fun _ => nofun, takes_advance s []⟩
      · refine Or.inl ⟨_, List.length_take_le' .., rfl, ?_⟩
        rw [List.length_take, ← List.take_eq_take_min]
        exact takes_advance s _
      · refine Or.inl ⟨_, Nat.le_refl _, rfl, ?_⟩
        rw [List.take_length]
        exact takes_advance s _

/-- How many bytes an outcome says were taken. -/
def taken : Except IoKind Nat → Nat
  | .ok n => n
  | .error _ => 0

theorem takes_writeThrough (data : Bytes) (s : Sink) : taken (s.writeThrough data).1 ≤ data.length ∧
    s.Takes (data.take (taken (s.writeThrough data).1)) (s.writeThrough data).2 := by
  fun_induction writeThrough data s with
  | case1 s n s₁ hw =>
    rcases takes_write data s with ⟨m, hm, hdone, htakes⟩ | ⟨hnone, -⟩
    · rw [hw] at hdone htakes
      cases hdone
      exact ⟨hm, htakes⟩
    · rw [hw] at hnone
      exact absurd rfl (hnone n)
  | case2 s kind s₁ hw =>
    rcases takes_write data s with ⟨m, -, hdone, -⟩ | ⟨-, htakes⟩
    · rw [hw] at hdone
      cases hdone
    · rw [hw] at htakes
      exact ⟨Nat.zero_le _, htakes⟩
  | case3 s s₁ hw ih =>
    rcases takes_write data s with ⟨m, -, hdone, -⟩ | ⟨-, htakes⟩
    · rw [hw] at hdone
      cases hdone
    · rw [hw] at htakes
      exact ⟨ih.1, htakes.trans ih.2⟩

/-- A relation between states and the bytes put in on the way holds of pouring if it does of the single offers. -/
theorem pour_relates {σ : Type} {put : Bytes → σ → Except IoKind Nat × σ} {R : σ → Bytes → σ → Prop}
    (hrefl : ∀ s, R s [] s)
    (htrans : ∀ {s s' s'' : σ} {front back : Bytes}, R s front s' → R s' back s'' → R s (front ++ back) s'')
    (hput : ∀ data s, taken (put data s).1 ≤ data.length ∧
      R s (data.take (taken (put data s).1)) (put data s).2) (data : Bytes) (s : σ) :
    ∃ n, R s (data.take n) (pour put data s).2 ∧ ((pour put data s).1 = .ok () → n = data.length) := by
  fun_induction pour put data s with
  | case1 s => exact ⟨0, hrefl s, fun _ => rfl⟩
  | case2 data s hdata kind s₁ hw =>
    have h := (hput data s).2
    rw [hw] at h
    exact ⟨0, h, nofun⟩
  | case3 data s hdata s₁ hw =>
    have h := (hput data s).2
    rw [hw] at h
    exact ⟨0, h, nofun⟩
  | case4 data s hdata n s₁ hw ih =>
    obtain ⟨hle, h⟩ := hput data s
    rw [hw] at h hle
    obtain ⟨m, hm, hfull⟩ := ih
    refine ⟨n + 1 + m, ?_, fun hok => ?_⟩
    · rw [List.take_add]
      exact htrans h hm
    · rw [hfull hok, List.length_drop]
      exact Nat.add_sub_of_le hle

/-- A sink took a front of what was poured into it, all of it unless the pouring failed. -/
theorem takes_writeAll (data : Bytes) (s : Sink) : ∃ n, s.Takes (data.take n) (s.writeAll data).2 ∧
    ((s.writeAll data).1 = .ok () → n = data.length) :=
  pour_relates (R := Takes) Takes.refl (fun h h' => h.trans h') takes_writeThrough data s

/-- The last call on `s` failed with `kind`, or took nothing of what it was offered. -/
def Broken (s : Sink) (kind : IoKind) : Prop :=
  ∃ calls, s.calls = calls + 1 ∧
    (s.pacing.turn calls s.received.size = .fails kind ∨
      s.pacing.turn calls s.received.size = .atMost 0 ∧ kind = .writeZero)

theorem broken_of_write (hdata : data ≠ []) :
    (∀ kind, (s.write data).1 = .failed kind → (s.write data).2.Broken kind) ∧
      ((s.write data).1 = .done 0 → (s.write data).2.Broken .writeZero) := by
  unfold write
  split
  · exact ⟨fun _ => nofun, nofun⟩
  · rw [if_neg (by simpa using hdata)]
    split
    · next kind hturn =>
      refine ⟨fun kind' hkind => ?_, nofun⟩
      obtain rfl := Transfer.failed.inj hkind
      exact ⟨s.calls, rfl, Or.inl (by simpa [advance] using hturn)⟩
    · next most hturn =>
      refine ⟨fun _ => nofun, fun hzero => ⟨s.calls, rfl, Or.inr ⟨?_, rfl⟩⟩⟩
      have hnil := List.eq_nil_of_length_eq_zero (Transfer.done.inj hzero)
      obtain rfl := (List.take_eq_nil_iff.1 hnil).resolve_right hdata
      simpa [advance] using hturn
    · refine ⟨fun _ => nofun, fun hzero => ?_⟩
      exact absurd (List.eq_nil_of_length_eq_zero (Transfer.done.inj hzero)) hdata

theorem broken_of_writeThrough (hdata : data ≠ []) :
    (∀ kind, (s.writeThrough data).1 = .error kind → (s.writeThrough data).2.Broken kind) ∧
      ((s.writeThrough data).1 = .ok 0 → (s.writeThrough data).2.Broken .writeZero) := by
  fun_induction writeThrough data s with
  | case1 s n s₁ hw =>
    have h := (broken_of_write (s := s) hdata).2
    rw [hw] at h
    exact ⟨fun _ => nofun, fun hzero => h (congrArg Transfer.done (Except.ok.inj hzero))⟩
  | case2 s kind s₁ hw =>
    have h := (broken_of_write (s := s) hdata).1 kind
    rw [hw] at h
    refine ⟨fun kind' hkind => ?_, nofun⟩
    obtain rfl := Except.error.inj hkind
    exact h rfl
  | case3 s s₁ hw ih => exact ih

/-- Pouring fails only into a sink whose last call failed or took nothing. -/
theorem broken_of_writeAll (data : Bytes) (s : Sink) {kind : IoKind} (h : (s.writeAll data).1 = .error kind) :
    (s.writeAll data).2.Broken kind := by
  unfold writeAll at h ⊢
  fun_induction pour Sink.writeThrough data s with
  | case1 s => cases h
  | case2 data s hdata kind' s₁ hw =>
    obtain rfl := Except.error.inj h
    have hbroken := (broken_of_writeThrough (s := s) hdata).1 kind'
    rw [hw] at hbroken
    exact hbroken rfl
  | case3 data s hdata s₁ hw =>
    obtain rfl := Except.error.inj h
    have hbroken := (broken_of_writeThrough (s := s) hdata).2
    rw [hw] at hbroken
    exact hbroken rfl
  | case4 data s hdata n s₁ hw ih => exact ih h

end Sink

/-- Pouring commutes with a view of the state that the single offers commute with. -/
theorem pour_comm {σ τ : Type} {put : Bytes → σ → Except IoKind Nat × σ} {put' : Bytes → τ → Except IoKind Nat × τ}
    (view : σ → τ) (h : ∀ data s, put' data (view s) = ((put data s).1, view (put data s).2)) (data : Bytes) (s : σ) :
    pour put' data (view s) = ((pour put data s).1, view (pour put data s).2) := by
  fun_induction pour put data s with
  | case1 s => rw [pour, dif_pos rfl]
  | case2 data s hdata kind s₁ hput => rw [pour, dif_neg hdata, h, hput]
  | case3 data s hdata s₁ hput => rw [pour, dif_neg hdata, h, hput]
  | case4 data s hdata n s₁ hput ih => rw [pour, dif_neg hdata, h, hput, ← ih]

/-! ## Digesting sinks -/

namespace DigestSink

theorem write_inner (data : Bytes) (s : DigestSink) :
    s.inner.write data = ((s.write data).1, (s.write data).2.inner) := by
  unfold write
  split <;> assumption

theorem writeThrough_inner (data : Bytes) (s : DigestSink) :
    s.inner.writeThrough data = ((s.writeThrough data).1, (s.writeThrough data).2.inner) := by
  fun_induction writeThrough data s with
  | case1 s n s₁ hw =>
    have hinner := write_inner data s
    unfold Sink.writeThrough
    split <;> simp_all
  | case2 s kind s₁ hw =>
    have hinner := write_inner data s
    unfold Sink.writeThrough
    split <;> simp_all
  | case3 s s₁ hw ih =>
    have hinner := write_inner data s
    rw [Sink.writeThrough]
    split <;> simp_all

/-- A digesting sink writes as the sink inside does. -/
theorem writeAll_inner (data : Bytes) (s : DigestSink) :
    s.inner.writeAll data = ((s.writeAll data).1, (s.writeAll data).2.inner) :=
  pour_comm DigestSink.inner writeThrough_inner data s

end DigestSink

end ShardCoding
