import Mathlib.Data.List.Pairwise
import Mathlib.Data.List.Sort
import Mathlib.Data.Rat.Lemmas
import Mathlib.Order.Defs.LinearOrder
import Mathlib.Tactic.NormNum
import ShardCoding.Network.Selection

/-!
# The order of ranked peers

Scores are compared by `<` alone, in which not every two need be comparable; what is said here is of peers whose scores
are.

* `TotalOn` : on some values `<` is the strict part of a total preorder; `TotalOn.of_value` : it is if it compares what
  the values stand for;
* `Candidate.Tied`, `Candidate.Before` : peers that rank alike, and the order of peers with their places in a list;
* `Candidate.exists_entries` : a sorted list has the peers in that order; `Candidate.rank_exact` : what is ranked, what
  is left out, and that neither depends on more than it should.
-/

namespace ShardCoding

variable {R : Type} [LT R]

/-- Among numbers `<` never holds both ways, and what is not below goes on to what is not below it: then `¬ b < a` is a
total preorder of `a` and `b`. -/
structure TotalOn (number : R → Prop) : Prop where
  asymm : ∀ {a b}, number a → number b → a < b → ¬ b < a
  not_lt_trans : ∀ {a b c}, number a → number b → number c → ¬ a < b → ¬ b < c → ¬ a < c

/-- Numbers may stand for values in a linear order, even several for one value. -/
theorem TotalOn.of_value {L : Type} [LinearOrder L] {number : R → Prop} (value : R → L)
    (hvalue : ∀ a b, number a → number b → (a < b ↔ value a < value b)) : TotalOn number where
  asymm ha hb hab := by
    rw [hvalue _ _ ha hb] at hab
    rw [hvalue _ _ hb ha]
    exact lt_asymm hab
  not_lt_trans ha hb hc hab hbc := by
    rw [hvalue _ _ ha hb, not_lt] at hab
    rw [hvalue _ _ hb hc, not_lt] at hbc
    rw [hvalue _ _ ha hc, not_lt]
    exact hbc.trans hab

namespace Candidate

/-- Neither score is below the other, and the latencies are equal. -/
def Tied (a b : Candidate R) : Prop := ¬ a.score < b.score ∧ ¬ b.score < a.score ∧ a.latency = b.latency

theorem Tied.symm {a b : Candidate R} (h : Tied a b) : Tied b a := ⟨h.2.1, h.1, h.2.2.symm⟩

/-- Peers with their places in a list: higher scores come first, of scores that do not differ lower latencies, and of
peers that are tied lower places. -/
def Before (p q : Candidate R × Nat) : Prop :=
  q.1.score < p.1.score ∨
    ¬ p.1.score < q.1.score ∧ (p.1.latency < q.1.latency ∨ p.1.latency = q.1.latency ∧ p.2 < q.2)

theorem Before.noWorse {p q : Candidate R × Nat} (h : Before p q) : NoWorse p.1 q.1 := by
  rcases h with hscore | ⟨hscore, hlatency | ⟨hlatency, -⟩⟩
  · exact Or.inl hscore
  · exact Or.inr ⟨hscore, hlatency.le⟩
  · exact Or.inr ⟨hscore, hlatency.le⟩

/-! ## Peers that can be compared -/

theorem noWorse_total (a b : Candidate R) : NoWorse a b ∨ NoWorse b a := by
  by_cases hab : a.score < b.score
  · exact Or.inr (Or.inl hab)
  by_cases hba : b.score < a.score
  · exact Or.inl (Or.inl hba)
  rcases Nat.le_total a.latency b.latency with hle | hle
  · exact Or.inl (Or.inr ⟨hab, hle⟩)
  · exact Or.inr (Or.inr ⟨hba, hle⟩)

section

variable {number : R → Prop} (h : TotalOn number) {a b c : Candidate R}

include h

theorem noWorse_trans (ha : number a.score) (hb : number b.score) (hc : number c.score) (hab : NoWorse a b)
    (hbc : NoWorse b c) : NoWorse a c := by
  by_cases hca : c.score < a.score
  · exact Or.inl hca
  -- As `c` is not below `a`, neither of the two steps can be one of scores.
  rcases hbc with hcb | ⟨hbc, hlatency'⟩
  · rcases hab with hba | ⟨hab, -⟩
    · exact absurd hcb (h.not_lt_trans hc ha hb hca (h.asymm hb ha hba))
    · exact absurd hcb (h.not_lt_trans hc ha hb hca hab)
  · rcases hab with hba | ⟨hab, hlatency⟩
    · exact absurd hba (h.not_lt_trans hb hc ha hbc hca)
    · exact Or.inr ⟨h.not_lt_trans ha hb hc hab hbc, hlatency.trans hlatency'⟩

theorem tied_of_noWorse (ha : number a.score) (hb : number b.score) (hab : NoWorse a b) (hba : NoWorse b a) :
    Tied a b := by
  rcases hab with hlt | ⟨hab, hle⟩
  · rcases hba with hlt' | ⟨hba, -⟩
    · exact absurd hlt' (h.asymm hb ha hlt)
    · exact absurd hlt hba
  · rcases hba with hlt' | ⟨hba, hle'⟩
    · exact absurd hlt' hab
    · exact ⟨hab, hba, Nat.le_antisymm hle hle'⟩

end

/-! ## Sorted peers -/

section

variable [DecidableLT R] {number : R → Prop}

/-- Sorting with places keeps peers that are tied in the order of their places. -/
theorem before_of_zipIdxLE {p q : Candidate R × Nat}
    (hle : List.zipIdxLE (fun a b => decide (NoWorse a b)) p q = true) (hne : p.2 ≠ q.2) : Before p q := by
  rw [List.zipIdxLE] at hle
  by_cases hscore : q.1.score < p.1.score
  · exact Or.inl hscore
  by_cases hpq : NoWorse p.1 q.1
  · obtain ⟨hscore', hlatency⟩ := hpq.resolve_left hscore
    refine Or.inr ⟨hscore', hlatency.lt_or_eq.imp_right fun heq => ⟨heq, ?_⟩⟩
    have hqp : NoWorse q.1 p.1 := Or.inr ⟨hscore, heq.ge⟩
    simp only [hpq, hqp, decide_true, if_true, decide_eq_true_eq] at hle
    omega
  · simp [hpq] at hle

variable {peers : List (Candidate R)}

/-- The sorted list with the place that each peer had. -/
theorem exists_entries (h : TotalOn number) (hpeers : ∀ c ∈ peers, number c.score) :
    ∃ entries : List (Candidate R × Nat), entries.Perm peers.zipIdx ∧ entries.Pairwise Before ∧
      entries.map (·.1) = peers.mergeSort fun a b => NoWorse a b := by
  -- Sorting is lawful among the peers with numbers for scores only, so they are sorted with what makes them so.
  let le : {c : Candidate R // number c.score} → {c : Candidate R // number c.score} → Bool :=
    fun a b => decide (NoWorse a.1 b.1)
  have htrans : ∀ a b c, le a b → le b c → le a c := fun a b c hab hbc =>
    decide_eq_true (noWorse_trans h a.2 b.2 c.2 (of_decide_eq_true hab) (of_decide_eq_true hbc))
  have htotal : ∀ a b, (le a b || le b a) = true := fun a b => by
    simpa only [le, Bool.or_eq_true, decide_eq_true_eq] using noWorse_total a.1 b.1
  let numbered := peers.attachWith (fun c => number c.score) hpeers
  have hnumbered : numbered.map Subtype.val = peers := List.attachWith_map_subtype_val hpeers
  let entries := numbered.zipIdx.mergeSort (List.zipIdxLE le)
  have hperm : entries.Perm numbered.zipIdx := List.mergeSort_perm _ _
  have hsorted : entries.Pairwise fun p q => List.zipIdxLE le p q :=
    List.pairwise_mergeSort (List.zipIdxLE_trans htrans) (List.zipIdxLE_total htotal) _
  have hplaces : entries.Pairwise fun p q => p.2 ≠ q.2 := by
    rw [← List.pairwise_map (f := Prod.snd) (R := fun i j => i ≠ j)]
    refine (hperm.map Prod.snd).nodup_iff.2 ?_
    rw [List.zipIdx_map_snd]
    exact List.nodup_range' 1
  refine ⟨entries.map fun p => (p.1.1, p.2), ?_, ?_, ?_⟩
  · rw [← hnumbered, List.zipIdx_map]
    exact hperm.map _
  · rw [List.pairwise_map]
    exact (hsorted.and hplaces).imp fun ⟨hle, hne⟩ => before_of_zipIdxLE hle hne
  · calc (entries.map fun p => (p.1.1, p.2)).map (·.1)
        = (entries.map (·.1)).map Subtype.val := by
          rw [List.map_map, List.map_map]
          rfl
      _ = (numbered.mergeSort le).map Subtype.val := by rw [List.mergeSort_zipIdx]
      _ = (numbered.map Subtype.val).mergeSort fun a b => NoWorse a b := List.map_mergeSort fun _ _ _ _ => rfl
      _ = peers.mergeSort fun a b => NoWorse a b := by rw [hnumbered]

theorem pairwise_mergeSort (h : TotalOn number) (hpeers : ∀ c ∈ peers, number c.score) :
    (peers.mergeSort fun a b => NoWorse a b).Pairwise NoWorse := by
  obtain ⟨entries, -, hbefore, hmap⟩ := exists_entries h hpeers
  rw [← hmap, List.pairwise_map]
  exact hbefore.imp Before.noWorse

/-- Without ties the sorted list does not depend on the order of the peers. -/
theorem mergeSort_of_perm (h : TotalOn number) (hpeers : ∀ c ∈ peers, number c.score)
    (huntied : peers.Pairwise fun a b => ¬ Tied a b) {peers' : List (Candidate R)} (hperm : peers'.Perm peers) :
    (peers'.mergeSort fun a b => NoWorse a b) = peers.mergeSort fun a b => NoWorse a b := by
  have hpeers' : ∀ c ∈ peers', number c.score := fun c hc => hpeers c (hperm.subset hc)
  refine List.Perm.eq_of_pairwise (fun a b ha hb hab hba => ?_) (pairwise_mergeSort h hpeers')
    (pairwise_mergeSort h hpeers) (((List.mergeSort_perm ..).trans hperm).trans (List.mergeSort_perm ..).symm)
  have ha : a ∈ peers := hperm.subset (List.mem_mergeSort.1 ha)
  have hb : b ∈ peers := List.mem_mergeSort.1 hb
  by_contra hne
  have : Std.Symm fun a b : Candidate R => ¬ Tied a b := ⟨fun _ _ hab hba => hab hba.symm⟩
  exact huntied.forall ha hb hne (tied_of_noWorse h (hpeers a ha) (hpeers b hb) hab hba)

/-- **The ranking of peers** whose scores can be compared: as many as are asked for, or all; each is one of the peers,
with the place it had among them, and they come in the order of scores, latencies and places. All that are left out
would come after all that are chosen. Asking for more leaves those in front that asking for fewer gives. If no two peers
are tied, the order in which they are given does not matter. -/
theorem rank_exact (h : TotalOn number) (hpeers : ∀ c ∈ peers, number c.score) :
    (∀ count, ∃ chosen leftOut : List (Candidate R × Nat),
      rank peers count = chosen.map (·.1) ∧ chosen.length = min count peers.length ∧
      (chosen ++ leftOut).Perm peers.zipIdx ∧ chosen.Pairwise Before ∧
      ∀ p ∈ chosen, ∀ q ∈ leftOut, Before p q) ∧
    (∀ count count', count ≤ count' → rank peers count <+: rank peers count') ∧
    ((peers.Pairwise fun a b => ¬ Tied a b) → ∀ peers' : List (Candidate R), peers'.Perm peers →
      ∀ count, rank peers' count = rank peers count) := by
  refine ⟨fun count => ?_, fun count count' hle => List.take_prefix_take_left hle,
    fun huntied peers' hperm count => congrArg (·.take count) (mergeSort_of_perm h hpeers huntied hperm)⟩
  obtain ⟨entries, hperm, hbefore, hmap⟩ := exists_entries h hpeers
  have hsplit := List.take_append_drop count entries
  obtain ⟨hchosen, -, hcross⟩ := List.pairwise_append.1 (hsplit.symm ▸ hbefore)
  refine ⟨entries.take count, entries.drop count, ?_, ?_, hsplit.symm ▸ hperm, hchosen, hcross⟩
  · rw [rank, ← hmap, List.map_take]
  · rw [List.length_take, hperm.length_eq, List.length_zipIdx]

/-- Three of five peers with rational scores, two of which have the same score. -/
theorem rank_exact_five : ∃ peers : List (Candidate ℚ),
    peers = [⟨"a", 65, 200, .healthy⟩, ⟨"b", 20, 0, .unhealthy⟩, ⟨"c", 85, 50, .healthy⟩, ⟨"d", 75, 300, .healthy⟩,
      ⟨"e", 75, 100, .healthy⟩] ∧
    (peers.Pairwise fun a b => ¬ Tied a b) ∧
    (∃ chosen leftOut : List (Candidate ℚ × Nat), rank peers 3 = chosen.map (·.1) ∧ chosen.length = min 3 5 ∧
      (chosen ++ leftOut).Perm peers.zipIdx ∧ chosen.Pairwise Before ∧ ∀ p ∈ chosen, ∀ q ∈ leftOut, Before p q) ∧
    rank peers 3 <+: rank peers 4 ∧ rank peers.reverse 3 = rank peers 3 := by
  let peers : List (Candidate ℚ) :=
    [⟨"a", 65, 200, .healthy⟩, ⟨"b", 20, 0, .unhealthy⟩, ⟨"c", 85, 50, .healthy⟩, ⟨"d", 75, 300, .healthy⟩,
      ⟨"e", 75, 100, .healthy⟩]
  have htotal : TotalOn fun _ : ℚ => True := TotalOn.of_value (fun x => x) fun _ _ _ _ => Iff.rfl
  have huntied : peers.Pairwise fun a b => ¬ Tied a b := by simp [peers, Tied]
  have hpeers : ∀ c ∈ peers, True := fun _ _ => trivial
  obtain ⟨hranked, hmore, horder⟩ := rank_exact htotal hpeers
  exact ⟨peers, rfl, huntied, hranked 3, hmore 3 4 (by decide),
    horder huntied peers.reverse (List.reverse_perm peers) 3⟩

end

end Candidate

end ShardCoding
