import Mathlib.Algebra.GroupWithZero.Nat
import Mathlib.Data.List.Induction
import Mathlib.Data.Nat.Choose.Basic
import ShardCoding.Network.Context
import ShardCoding.Scheme

/-!
# What is recorded of peers

* `Report` : a transfer to a peer, as it is recorded; `NetworkContext.after` : a new context after reports;
* `NetworkContext.metricsOf?_after` : the metrics of a peer follow from the reports of it alone, one after another;
* `PeerMetrics.Tracks` : metrics against the latencies and failures that they sum up, the average with the error that
  rounding has let grow; `PeerMetrics.tracks_note` : one more report; `PeerMetrics.ofReports_induction` : what each
  report keeps;
* `PeerMetrics.nextTotal` : the number that the next average is a part of, in two words;
* `NetworkContext.peerMetrics_after` : the metrics of a peer after any reports.
-/

namespace ShardCoding

inductive Report where
  | success (peer : String) (latency : Nat)
  | failure (peer : String)
  deriving DecidableEq

namespace Report

def peer : Report → String
  | success peer _ => peer
  | failure peer => peer

def latency? : Report → Option Nat
  | success _ latency => some latency
  | failure _ => none

/-- The reports of one peer. -/
def of (id : String) (reports : List Report) : List Report := reports.filter (·.peer = id)

/-- The latencies of the successes. -/
def latencies (reports : List Report) : List Nat := reports.filterMap latency?

/-- The number of failures. -/
def failures (reports : List Report) : Nat := reports.countP (·.latency?.isNone)

theorem latencies_append (reports reports' : List Report) :
    latencies (reports ++ reports') = latencies reports ++ latencies reports' := List.filterMap_append

theorem failures_append (reports reports' : List Report) :
    failures (reports ++ reports') = failures reports + failures reports' := List.countP_append

/-- Every report is a success or a failure. -/
theorem length_latencies_add_failures (reports : List Report) :
    (latencies reports).length + failures reports = reports.length := by
  induction reports with
  | nil => rfl
  | cons r reports ih =>
    rw [List.length_cons, ← ih, failures, List.countP_cons]
    cases r with
    | success peer latency => exact Nat.add_right_comm ..
    | failure peer => exact (Nat.add_assoc ..).symm

end Report

variable {R : Type}

namespace PeerMetrics

/-! ## One peer -/

section

variable [Scale R]

/-- What is kept of a peer after one more report of it. -/
def note (kept : Option (PeerMetrics R)) : Report → PeerMetrics R
  | .success _ latency => kept.elim (firstSuccess latency) (·.recordSuccess latency)
  | .failure _ => kept.elim firstFailure recordFailure

/-- What is kept of a peer after all reports of it. -/
def ofReports (reports : List Report) : Option (PeerMetrics R) := reports.foldl (fun kept r => some (note kept r)) none

theorem ofReports_concat (reports : List Report) (r : Report) :
    ofReports (reports ++ [r]) = some (note (ofReports reports : Option (PeerMetrics R)) r) := by
  rw [ofReports, List.foldl_append]
  rfl

end

/-- What the next average is one part in so many successes of. -/
def nextTotal (m : PeerMetrics R) (latency : Nat) : Nat := m.averageLatency * m.successes + latency

/-- `m` sums up successful transfers with the given latencies, and so many failures. Without a success all latencies of
`m` are 0. Each average is rounded down, so it falls behind by less than one for each success but the first. -/
structure Tracks (m : PeerMetrics R) (latencies : List Nat) (failures : Nat) : Prop where
  successes_eq : m.successes = latencies.length
  failures_eq : m.failures = failures
  min_eq : m.minLatency = latencies.min?.getD 0
  max_eq : m.maxLatency = latencies.max?.getD 0
  min_le : m.minLatency ≤ m.averageLatency
  le_max : m.averageLatency ≤ m.maxLatency
  mul_le_sum : m.successes * m.averageLatency ≤ latencies.sum
  sum_sub_le : latencies.sum - m.successes * m.averageLatency ≤ m.successes * (m.successes - 1) / 2

variable {m : PeerMetrics R} {latencies : List Nat} {failures : Nat}

section

variable [Scale R]

theorem averageLatency_recordSuccess (m : PeerMetrics R) (latency : Nat) :
    (m.recordSuccess latency).averageLatency = m.nextTotal latency / (m.successes + 1) := rfl

theorem tracks_firstSuccess (latency : Nat) : (firstSuccess latency : PeerMetrics R).Tracks [latency] 0 where
  successes_eq := rfl
  failures_eq := rfl
  min_eq := rfl
  max_eq := rfl
  min_le := Nat.le_refl _
  le_max := Nat.le_refl _
  mul_le_sum := by simp [firstSuccess]
  sum_sub_le := by simp [firstSuccess]

theorem tracks_firstFailure : (firstFailure : PeerMetrics R).Tracks [] 1 where
  successes_eq := rfl
  failures_eq := rfl
  min_eq := rfl
  max_eq := rfl
  min_le := Nat.le_refl _
  le_max := Nat.le_refl _
  mul_le_sum := Nat.le_refl _
  sum_sub_le := Nat.zero_le _

theorem getD_min?_concat (latencies : List Nat) (latency : Nat) :
    (latencies ++ [latency]).min?.getD 0 =
      if latencies.length = 0 then latency else min (latencies.min?.getD 0) latency := by
  cases latencies with
  | nil => rfl
  | cons first rest => simp [List.min?, List.foldl_append]

theorem getD_max?_concat (latencies : List Nat) (latency : Nat) :
    (latencies ++ [latency]).max?.getD 0 =
      if latencies.length = 0 then latency else max (latencies.max?.getD 0) latency := by
  cases latencies with
  | nil => rfl
  | cons first rest => simp [List.max?, List.foldl_append]

/-- The least latency after a success is up to the new latency and up to what the average was, if there was one. -/
theorem minLatency_recordSuccess_le (m : PeerMetrics R) (hle : m.minLatency ≤ m.averageLatency) (latency : Nat) :
    (m.recordSuccess latency).minLatency * (m.successes + 1) ≤ m.nextTotal latency := by
  rw [recordSuccess, nextTotal]
  dsimp only
  by_cases hfirst : m.successes = 0
  · rw [if_pos hfirst, hfirst, Nat.mul_zero, Nat.zero_add, Nat.zero_add, Nat.mul_one]
  · rw [if_neg hfirst, Nat.mul_succ]
    exact Nat.add_le_add (Nat.mul_le_mul_right _ (Nat.le_trans (Nat.min_le_left ..) hle)) (Nat.min_le_right ..)

theorem le_maxLatency_recordSuccess (m : PeerMetrics R) (hle : m.averageLatency ≤ m.maxLatency) (latency : Nat) :
    m.nextTotal latency ≤ (m.recordSuccess latency).maxLatency * (m.successes + 1) := by
  rw [recordSuccess, nextTotal]
  dsimp only
  by_cases hfirst : m.successes = 0
  · rw [if_pos hfirst, hfirst, Nat.mul_zero, Nat.zero_add, Nat.zero_add, Nat.mul_one]
  · rw [if_neg hfirst, Nat.mul_succ]
    exact Nat.add_le_add (Nat.mul_le_mul_right _ (Nat.le_trans hle (Nat.le_max_left ..))) (Nat.le_max_right ..)

theorem Tracks.recordSuccess (h : m.Tracks latencies failures) (latency : Nat) :
    (m.recordSuccess latency).Tracks (latencies ++ [latency]) failures := by
  have hdiv := Nat.div_add_mod (m.nextTotal latency) (m.successes + 1)
  have hmod : m.nextTotal latency % (m.successes + 1) ≤ m.successes := Nat.le_of_lt_succ (Nat.mod_lt _ (Nat.succ_pos _))
  have htotal : m.nextTotal latency = m.successes * m.averageLatency + latency := by rw [nextTotal, Nat.mul_comm]
  have hle := h.mul_le_sum
  have hsub := h.sum_sub_le
  have htriangle := Nat.triangle_succ m.successes
  have hsum : (latencies ++ [latency]).sum = latencies.sum + latency := by simp
  rw [← averageLatency_recordSuccess] at hdiv
  constructor
  · show m.successes + 1 = _
    rw [List.length_append, h.successes_eq, List.length_singleton]
  · exact h.failures_eq
  · show (if m.successes = 0 then latency else min m.minLatency latency) = _
    rw [getD_min?_concat, h.successes_eq, h.min_eq]
  · show (if m.successes = 0 then latency else max m.maxLatency latency) = _
    rw [getD_max?_concat, h.successes_eq, h.max_eq]
  · rw [averageLatency_recordSuccess, Nat.le_div_iff_mul_le (Nat.succ_pos _)]
    exact m.minLatency_recordSuccess_le h.min_le latency
  · rw [averageLatency_recordSuccess]
    exact Nat.div_le_of_le_mul (Nat.mul_comm _ _ ▸ m.le_maxLatency_recordSuccess h.le_max latency)
  · show (m.successes + 1) * _ ≤ _
    omega
  · show _ - (m.successes + 1) * _ ≤ (m.successes + 1) * (m.successes + 1 - 1) / 2
    -- Rounding loses less than one for each success before this one.
    omega

theorem Tracks.recordFailure (h : m.Tracks latencies failures) : m.recordFailure.Tracks latencies (failures + 1) where
  successes_eq := h.successes_eq
  failures_eq := congrArg (· + 1) h.failures_eq
  min_eq := h.min_eq
  max_eq := h.max_eq
  min_le := h.min_le
  le_max := h.le_max
  mul_le_sum := h.mul_le_sum
  sum_sub_le := h.sum_sub_le

theorem tracks_note (kept : Option (PeerMetrics R)) {reports : List Report}
    (hkept : ∀ m, kept = some m → m.Tracks (Report.latencies reports) (Report.failures reports))
    (hnone : kept = none → reports = []) (r : Report) :
    (note kept r).Tracks (Report.latencies (reports ++ [r])) (Report.failures (reports ++ [r])) := by
  rw [Report.latencies_append, Report.failures_append]
  cases kept with
  | none =>
    obtain rfl := hnone rfl
    cases r with
    | success peer latency => exact tracks_firstSuccess latency
    | failure peer => exact tracks_firstFailure
  | some m =>
    cases r with
    | success peer latency => exact (hkept m rfl).recordSuccess latency
    | failure peer => exact (List.append_nil (Report.latencies reports)).symm ▸ (hkept m rfl).recordFailure

theorem tracks_ofReports (reports : List Report) : ((ofReports reports : Option (PeerMetrics R)) = none ↔ reports = []) ∧
    ∀ m : PeerMetrics R, ofReports reports = some m → m.Tracks (Report.latencies reports) (Report.failures reports) := by
  induction reports using List.reverseRecOn with
  | nil => exact ⟨⟨fun _ => rfl, fun _ => rfl⟩, nofun⟩
  | append_singleton reports r ih =>
    rw [ofReports_concat]
    refine ⟨by simp, fun m hm => ?_⟩
    obtain rfl := Option.some.inj hm
    exact tracks_note _ ih.2 ih.1.1 r

/-- What the first report leaves and each one more keeps holds of what is kept. -/
theorem ofReports_induction {motive : List Report → PeerMetrics R → Prop}
    (hfirstSuccess : ∀ peer latency, motive [.success peer latency] (firstSuccess latency))
    (hfirstFailure : ∀ peer, motive [.failure peer] firstFailure)
    (hsuccess : ∀ reports m peer latency, ofReports reports = some m → motive reports m →
      motive (reports ++ [.success peer latency]) (m.recordSuccess latency))
    (hfailure : ∀ reports m peer, ofReports reports = some m → motive reports m →
      motive (reports ++ [.failure peer]) m.recordFailure)
    (reports : List Report) : ∀ m, ofReports reports = some m → motive reports m := by
  induction reports using List.reverseRecOn with
  | nil => exact nofun
  | append_singleton reports r ih =>
    intro m hm
    rw [ofReports_concat] at hm
    obtain rfl := Option.some.inj hm
    cases hkept : (ofReports reports : Option (PeerMetrics R)) with
    | none =>
      obtain rfl := (tracks_ofReports reports).1.1 hkept
      cases r with
      | success peer latency => exact hfirstSuccess peer latency
      | failure peer => exact hfirstFailure peer
    | some kept =>
      cases r with
      | success peer latency => exact hsuccess reports kept peer latency hkept (ih kept hkept)
      | failure peer => exact hfailure reports kept peer hkept (ih kept hkept)

end

/-! ## Words -/

/-- One more than the greatest number of two words. -/
def doubleWordLimit : Nat := wordLimit * wordLimit

/-- All numbers of `m` fit in a word, and so do all attempts together and the spread of the latencies. -/
structure FitsWords (m : PeerMetrics R) : Prop where
  attempts_lt : m.successes + m.failures < wordLimit
  average_lt : m.averageLatency < wordLimit
  max_lt : m.maxLatency < wordLimit
  min_le_max : m.minLatency ≤ m.maxLatency

theorem Tracks.fitsWords (h : m.Tracks latencies failures) (hwords : ∀ l ∈ latencies, l < wordLimit)
    (hcount : latencies.length + failures < wordLimit) : m.FitsWords := by
  have hmax : m.maxLatency < wordLimit := by
    rw [h.max_eq]
    cases hmax : latencies.max? with
    | none => decide
    | some l => exact hwords l (List.max?_mem hmax)
  refine ⟨?_, Nat.lt_of_le_of_lt h.le_max hmax, hmax, Nat.le_trans h.min_le h.le_max⟩
  rwa [h.successes_eq, h.failures_eq]

/-- The product of two words and a word more are less than two words hold. -/
theorem FitsWords.nextTotal_lt (h : m.FitsWords) {latency : Nat} (hlatency : latency < wordLimit) :
    m.nextTotal latency < doubleWordLimit := by
  have hsuccesses : m.successes < wordLimit := Nat.lt_of_le_of_lt (Nat.le_add_right ..) h.attempts_lt
  calc m.averageLatency * m.successes + latency
      ≤ (wordLimit - 1) * (wordLimit - 1) + (wordLimit - 1) :=
        Nat.add_le_add (Nat.mul_le_mul (Nat.le_pred_of_lt h.average_lt) (Nat.le_pred_of_lt hsuccesses))
          (Nat.le_pred_of_lt hlatency)
    _ < doubleWordLimit := by decide

end PeerMetrics

namespace NetworkContext

/-! ## All peers -/

section

variable [Scale R]

def record (n : NetworkContext R) : Report → NetworkContext R
  | .success peer latency => n.recordSuccess peer latency
  | .failure peer => n.recordFailure peer

/-- A new context after reports of any peers, in the order in which they arrive. -/
def after (reports : List Report) : NetworkContext R := reports.foldl record empty

theorem after_concat (reports : List Report) (r : Report) :
    after (reports ++ [r]) = (after reports : NetworkContext R).record r := by
  rw [after, List.foldl_append]
  rfl

end

/-- The entries are in ascending order of the ids, so there is one for each. -/
def Ordered (peers : List (String × PeerMetrics R)) : Prop := peers.Pairwise fun p p' => p.1 < p'.1

variable {peers : List (String × PeerMetrics R)}

theorem mem_upsert {id : String} {change : PeerMetrics R → PeerMetrics R} {new : PeerMetrics R}
    {p : String × PeerMetrics R} (hp : p ∈ upsert id change new peers) : p.1 = id ∨ p ∈ peers := by
  induction peers with
  | nil => exact Or.inl (congrArg Prod.fst (List.mem_singleton.1 hp))
  | cons first rest ih =>
    rw [upsert] at hp
    split at hp
    · rcases List.mem_cons.1 hp with rfl | hrest
      · exact Or.inl rfl
      · exact Or.inr (List.mem_cons_of_mem _ hrest)
    · split at hp
      · rcases List.mem_cons.1 hp with rfl | hrest
        · exact Or.inl rfl
        · exact Or.inr hrest
      · rcases List.mem_cons.1 hp with rfl | hrest
        · exact Or.inr List.mem_cons_self
        · exact (ih hrest).imp_right (List.mem_cons_of_mem _)

theorem Ordered.upsert (h : Ordered peers) (id : String) (change : PeerMetrics R → PeerMetrics R)
    (new : PeerMetrics R) : Ordered (upsert id change new peers) := by
  induction peers with
  | nil => exact List.pairwise_singleton ..
  | cons first rest ih =>
    obtain ⟨hfirst, hrest⟩ := List.pairwise_cons.1 h
    rw [NetworkContext.upsert]
    split
    · next heq => exact List.pairwise_cons.2 ⟨fun p hp => heq ▸ hfirst p hp, hrest⟩
    · next hne =>
      split
      · next hlt =>
        refine List.pairwise_cons.2 ⟨fun p hp => ?_, h⟩
        rcases List.mem_cons.1 hp with rfl | hp
        · exact hlt
        · exact String.lt_trans hlt (hfirst p hp)
      · next hge =>
        have hlt : first.1 < id := by
          refine String.not_le.1 fun hle => hne ?_
          exact String.le_antisymm hle (String.not_lt.1 hge)
        refine List.pairwise_cons.2 ⟨fun p hp => ?_, ih hrest⟩
        rcases mem_upsert hp with rfl | hp
        · exact hlt
        · exact hfirst p hp

/-- An entry is changed, or is new if there was none, and all others stay. -/
theorem Ordered.find?_upsert (h : Ordered peers) (id other : String) (change : PeerMetrics R → PeerMetrics R)
    (new : PeerMetrics R) :
    ((NetworkContext.upsert id change new peers).find? (·.1 = other)).map (·.2) =
      if id = other then some (((peers.find? (·.1 = other)).map (·.2)).elim new change)
      else (peers.find? (·.1 = other)).map (·.2) := by
  induction peers with
  | nil => by_cases hid : id = other <;> simp [NetworkContext.upsert, hid]
  | cons first rest ih =>
    obtain ⟨hfirst, hrest⟩ := List.pairwise_cons.1 h
    obtain ⟨key, m⟩ := first
    rw [NetworkContext.upsert]
    by_cases hkey : id = key
    · subst hkey
      by_cases hid : id = other <;> simp [hid]
    · rw [if_neg hkey]
      by_cases hlt : id < key
      · -- What comes before the first entry is before all, so there was no entry for it.
        have hnone : ∀ p ∈ (key, m) :: rest, p.1 ≠ id := by
          rintro p hp rfl
          rcases List.mem_cons.1 hp with rfl | hp
          · exact hkey rfl
          · exact String.lt_irrefl _ (String.lt_trans hlt (hfirst p hp))
        rw [if_pos hlt]
        by_cases hid : id = other
        · subst hid
          have hfind : ((key, m) :: rest).find? (·.1 = id) = none := by
            rw [List.find?_eq_none]
            exact fun p hp => by simpa using hnone p hp
          rw [if_pos rfl, hfind]
          simp
        · simp [hid]
      · rw [if_neg hlt, List.find?_cons, List.find?_cons]
        by_cases hother : key = other
        · have hid : id ≠ other := fun heq => hkey (heq.trans hother.symm)
          simp [hother, hid]
        · simpa [hother] using ih hrest

variable [Scale R] {n : NetworkContext R}

theorem ordered_record (h : Ordered n.peers) (r : Report) : Ordered (n.record r).peers := by
  cases r with
  | success peer latency => exact h.upsert peer _ _
  | failure peer => exact h.upsert peer _ _

theorem ordered_after (reports : List Report) : Ordered (after reports : NetworkContext R).peers :=
  List.foldlRecOn reports record (motive := fun n : NetworkContext R => Ordered n.peers) List.Pairwise.nil
    fun _ h r _ => ordered_record h r

theorem metricsOf?_record (h : Ordered n.peers) (r : Report) (id : String) :
    (n.record r).metricsOf? id =
      if r.peer = id then some (PeerMetrics.note (n.metricsOf? id) r) else n.metricsOf? id := by
  cases r with
  | success peer latency => exact h.find?_upsert peer id _ _
  | failure peer => exact h.find?_upsert peer id _ _

/-- What is kept of a peer follows from the reports of it. -/
theorem metricsOf?_after (reports : List Report) (id : String) :
    (after reports : NetworkContext R).metricsOf? id = PeerMetrics.ofReports (Report.of id reports) := by
  induction reports using List.reverseRecOn with
  | nil => rfl
  | append_singleton reports r ih =>
    rw [after_concat, metricsOf?_record (ordered_after reports), ih, Report.of, Report.of, List.filter_append]
    by_cases hr : r.peer = id
    · rw [if_pos hr, List.filter_cons_of_pos (by simpa using hr), List.filter_nil, PeerMetrics.ofReports_concat]
    · rw [if_neg hr, List.filter_cons_of_neg (by simpa using hr), List.filter_nil, List.append_nil]

/-- What is kept of a peer sums up the reports of it, in words if there are fewer reports than a word counts. -/
theorem tracks_metricsOf? {reports : List Report} (hcount : reports.length < wordLimit)
    (hwords : ∀ l ∈ Report.latencies reports, l < wordLimit) {id : String} {m : PeerMetrics R}
    (hm : (after reports).metricsOf? id = some m) :
    m.Tracks (Report.latencies (Report.of id reports)) (Report.failures (Report.of id reports)) ∧ m.FitsWords := by
  rw [metricsOf?_after] at hm
  have htracks := (PeerMetrics.tracks_ofReports _).2 m hm
  have hown : (Report.of id reports).Sublist reports := List.filter_sublist
  refine ⟨htracks, htracks.fitsWords (fun l hl => hwords l ((hown.filterMap _).subset hl)) ?_⟩
  rw [Report.length_latencies_add_failures]
  exact Nat.lt_of_le_of_lt hown.length_le hcount

/-- **The metrics of a peer**: after fewer reports than a word counts, of latencies in words, of any peers and in any
order, what is kept of one peer is what the reports of it alone leave, nothing if there are none. It sums them up, with
the average short of the mean by no more than rounding each step can make it, and its numbers fit in words. Wherever a
success is recorded meanwhile, the number that is divided fits in two words, and the average that comes out in one. -/
theorem peerMetrics_after (reports : List Report) (hcount : reports.length < wordLimit)
    (hwords : ∀ l ∈ Report.latencies reports, l < wordLimit) (id : String) :
    let own := Report.of id reports
    let kept := (after reports : NetworkContext R).metricsOf? id
    kept = (after own).metricsOf? id ∧ (kept = none ↔ own = []) ∧
    (∀ m, kept = some m → m.Tracks (Report.latencies own) (Report.failures own) ∧ m.FitsWords) ∧
    ∀ earlier latency later, reports = earlier ++ .success id latency :: later →
      ∀ m, (after earlier : NetworkContext R).metricsOf? id = some m →
        m.nextTotal latency < PeerMetrics.doubleWordLimit ∧ (m.recordSuccess latency).FitsWords := by
  refine ⟨?_, ?_, fun m hm => tracks_metricsOf? hcount hwords hm, ?_⟩
  · rw [metricsOf?_after, metricsOf?_after, Report.of, Report.of, List.filter_filter]
    simp only [Bool.and_self]
  · rw [metricsOf?_after]
    exact (PeerMetrics.tracks_ofReports _).1
  · rintro earlier latency later rfl m hm
    have hnext : (after (earlier ++ [.success id latency]) : NetworkContext R).metricsOf? id =
        some (m.recordSuccess latency) := by
      rw [after_concat, metricsOf?_record (ordered_after earlier), hm]
      exact if_pos rfl
    have hsplit : earlier ++ .success id latency :: later = (earlier ++ [.success id latency]) ++ later := by simp
    rw [hsplit, List.length_append, List.length_append] at hcount
    rw [hsplit, Report.latencies_append, Report.latencies_append] at hwords
    have hfront : ∀ l ∈ Report.latencies earlier ++ [latency], l < wordLimit :=
      fun l hl => hwords l (List.mem_append_left _ hl)
    have hearlier := (tracks_metricsOf? (by omega) (fun l hl => hfront l (List.mem_append_left _ hl)) hm).2
    refine ⟨hearlier.nextTotal_lt (hfront latency (List.mem_append_right _ List.mem_cons_self)), ?_⟩
    exact (tracks_metricsOf? (by rw [List.length_append]; omega) (by rwa [Report.latencies_append]) hnext).2

/-- A failure, three successes of one peer whose mean is no whole number, and a success of another in between. -/
theorem peerMetrics_after_two_peers : ∃ (reports : List Report) (m : PeerMetrics Float),
    reports = [.failure "b", .success "b" 7, .success "a" 90, .success "b" 4, .success "b" 4] ∧
    (after reports).metricsOf? "b" = some m ∧
    (after reports : NetworkContext Float).metricsOf? "b" =
      (after [.failure "b", .success "b" 7, .success "b" 4, .success "b" 4]).metricsOf? "b" ∧
    m.successes = 3 ∧ m.failures = 1 ∧ m.minLatency = 4 ∧ m.maxLatency = 7 ∧ 3 * m.averageLatency ≤ 15 ∧
    15 - 3 * m.averageLatency ≤ 3 ∧ (after reports : NetworkContext Float).metricsOf? "c" = none := by
  let reports : List Report := [.failure "b", .success "b" 7, .success "a" 90, .success "b" 4, .success "b" 4]
  have hwords : ∀ l ∈ Report.latencies reports, l < wordLimit := by decide
  obtain ⟨hown, hnone, htracks, -⟩ := peerMetrics_after (R := Float) reports (by decide) hwords "b"
  obtain ⟨-, hother, -⟩ := peerMetrics_after (R := Float) reports (by decide) hwords "c"
  obtain ⟨m, hm⟩ := Option.ne_none_iff_exists'.1 fun h => absurd (hnone.1 h) (by decide)
  obtain ⟨hm', -⟩ := htracks m hm
  have hsuccesses : m.successes = 3 := hm'.successes_eq
  have hmul := hm'.mul_le_sum
  have hsub := hm'.sum_sub_le
  rw [hsuccesses] at hmul hsub
  exact ⟨reports, m, rfl, hm, hown, hsuccesses, hm'.failures_eq, hm'.min_eq, hm'.max_eq, hmul, hsub, hother.2 (by decide)⟩

end NetworkContext

end ShardCoding
