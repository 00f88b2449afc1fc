import ShardCoding.Proofs.Stream.Transfer

/-!
# Steady endpoints

* `Pacing.Steady` : an endpoint that never fails and moves something in every call, in pieces of any length and with
  any interruptions;
* `Source.Follows` : what stays as it is when bytes are read;
* `readUpTo_steady`, `readExact_steady`, `writeAll_steady` : the transfers with a steady endpoint.
-/

namespace ShardCoding

structure Pacing.Steady (p : Pacing) : Prop where
  moves : ∀ calls moved, p.turn calls moved ≠ .atMost 0
  reliable : ∀ calls moved kind, p.turn calls moved ≠ .fails kind

/-- An endpoint in memory moves all it is offered. -/
theorem Pacing.steady_default : ({} : Pacing).Steady := ⟨fun _ _ => nofun, fun _ _ _ => nofun⟩

/-! ## Sources -/

namespace Source

/-- `s'` is `s` after some bytes were handed out. -/
structure Follows (s s' : Source) : Prop where
  pacing_eq : s'.pacing = s.pacing
  consumed_eq : s'.consumed + s'.rest.length = s.consumed + s.rest.length

variable {s s' s'' : Source} {want : Nat}

theorem Follows.refl (s : Source) : s.Follows s := ⟨rfl, rfl⟩

theorem Follows.trans (h : s.Follows s') (h' : s'.Follows s'') : s.Follows s'' :=
  ⟨h'.pacing_eq.trans h.pacing_eq, h'.consumed_eq.trans h.consumed_eq⟩

theorem Hands.follows {bytes : Bytes} (h : s.Hands bytes s') : s.Follows s' := by
  refine ⟨h.pacing_eq, ?_⟩
  rw [h.consumed_eq, h.rest_eq, List.length_append, Nat.add_assoc]

theorem not_broken_of_steady (h : s.pacing.Steady) (kind : IoKind) : ¬ s.Broken kind := by
  rintro ⟨calls, -, hturn⟩
  exact h.reliable _ _ _ hturn

/-- A steady source fills as much of the buffer as it can. -/
theorem readUpTo_steady (h : s.pacing.Steady) : ∃ s', s.readUpTo want = (.ok (s.rest.take want), s') ∧
    s'.rest = s.rest.drop want ∧ s.Follows s' := by
  rcases hread : s.readUpTo want with ⟨kind | bytes, s'⟩
  · obtain ⟨⟨bytes, hhands⟩, hbroken⟩ := broken_of_readUpTo hread
    exact absurd hbroken (not_broken_of_steady (hhands.pacing_eq ▸ h) kind)
  · obtain ⟨hhands, hle, hend⟩ := hands_of_readUpTo hread
    have htake : s.rest.take want = bytes ∧ s.rest.drop want = s'.rest := by
      rw [hhands.rest_eq]
      rcases Nat.lt_or_eq_of_le hle with hshort | hfull
      · have hnil := (hend hshort).rest_eq_nil (hhands.pacing_eq ▸ h.moves)
        rw [hnil, List.append_nil, List.take_of_length_le hle, List.drop_of_length_le hle]
        exact ⟨rfl, rfl⟩
      · exact ⟨List.take_left' hfull, List.drop_left' hfull⟩
    rw [htake.1]
    exact ⟨s', rfl, htake.2.symm, hhands.follows⟩

theorem readExact_steady (h : s.pacing.Steady) (hwant : want ≤ s.rest.length) :
    ∃ s', s.readExact want = (.ok (s.rest.take want), s') ∧ s'.rest = s.rest.drop want ∧ s.Follows s' := by
  obtain ⟨s', hread, hrest, hfollows⟩ := readUpTo_steady h
  refine ⟨s', ?_, hrest, hfollows⟩
  unfold readExact
  rw [hread]
  dsimp only
  rw [if_neg (by rw [List.length_take_of_le hwant]; exact Nat.lt_irrefl _)]

end Source

/-! ## Sinks -/

namespace Sink

variable {s : Sink}

theorem not_broken_of_steady (h : s.pacing.Steady) (kind : IoKind) : ¬ s.Broken kind := by
  rintro ⟨calls, -, hturn | ⟨hturn, -⟩⟩
  · exact h.reliable _ _ _ hturn
  · exact h.moves _ _ hturn

/-- A steady sink takes all that is poured into it. -/
theorem writeAll_steady (data : Bytes) (h : s.pacing.Steady) :
    ∃ s', s.writeAll data = (.ok (), s') ∧ s.Takes data s' := by
  obtain ⟨n, htakes, hfull⟩ := takes_writeAll data s
  have hok : (s.writeAll data).1 = .ok () := by
    cases hrun : (s.writeAll data).1 with
    | ok => rfl
    | error kind =>
      have hsteady : (s.writeAll data).2.pacing.Steady := htakes.pacing_eq ▸ h
      exact absurd (broken_of_writeAll data s hrun) (not_broken_of_steady hsteady kind)
  rw [hfull hok, List.take_length] at htakes
  exact ⟨_, Prod.ext hok rfl, htakes⟩

end Sink

end ShardCoding
