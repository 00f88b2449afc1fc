import Mathlib.Algebra.Order.Field.Rat
import Mathlib.Algebra.Order.Field.Basic
import Mathlib.Data.Nat.Cast.Order.Field
import Mathlib.Tactic.GCongr
import Mathlib.Tactic.Linarith
import Mathlib.Tactic.NormNum
import Mathlib.Tactic.Positivity
import ShardCoding.Proofs.Network.History

/-!
# The score of a peer

Rates and scores in rational numbers, without rounding.

* `PeerMetrics.Coherent` : what the score relies on; `coherent_ofReports` : any reports leave it so;
* `PeerMetrics.score_eq` : the score by its parts, each from 0 to 1;
* `NetworkContext.peerScore_after` : the range of the score after any reports, and what one more report does to it.
-/

namespace ShardCoding

instance : Scale ℚ where
  ofNat := Nat.cast

namespace PeerMetrics

/-! ## The parts of a score -/

section

variable (successes failures : Nat)

theorem rate_eq : (rate successes failures : ℚ) = successes / (successes + failures : Nat) := rfl

theorem rate_nonneg : (0 : ℚ) ≤ rate successes failures := by
  rw [rate_eq]
  positivity

theorem rate_le_one : (rate successes failures : ℚ) ≤ 1 := by
  rw [rate_eq]
  exact div_le_one_of_le₀ (Nat.cast_le.2 (Nat.le_add_right ..)) (Nat.cast_nonneg _)

/-- One more failure lowers the rate, unless it is 0. -/
theorem rate_failure_le : (rate successes (failures + 1) : ℚ) ≤ rate successes failures := by
  rw [rate_eq, rate_eq]
  rcases Nat.eq_zero_or_pos successes with rfl | hpos
  · simp
  · gcongr
    omega

/-- One more success raises the rate, unless it is 1. -/
theorem rate_le_success : (rate successes failures : ℚ) ≤ rate (successes + 1) failures := by
  rcases Nat.eq_zero_or_pos successes with rfl | hpos
  · have hzero : (rate 0 failures : ℚ) = 0 := by simp [rate_eq]
    exact hzero ▸ rate_nonneg 1 failures
  · rw [rate_eq, rate_eq, div_le_div_iff₀ (by positivity) (by positivity)]
    exact_mod_cast show successes * (successes + 1 + failures) ≤ (successes + 1) * (successes + failures) by
      rw [Nat.succ_mul, Nat.add_right_comm, Nat.mul_succ]
      omega

end

/-- How far an average latency is below a second, as a part of one. -/
def speed (latency : Nat) : ℚ := max (1 - latency / 1000) 0

theorem speed_nonneg (latency : Nat) : 0 ≤ speed latency := le_max_right ..

theorem speed_le_one (latency : Nat) : speed latency ≤ 1 :=
  max_le (sub_le_self 1 (by positivity)) zero_le_one

theorem speed_anti {latency latency' : Nat} (hle : latency ≤ latency') : speed latency' ≤ speed latency := by
  unfold speed
  gcongr

variable {m : PeerMetrics ℚ}

theorem score_eq (m : PeerMetrics ℚ) :
    m.score = m.successRate * 40 + speed m.averageLatency * 30 + m.consistency * 20 + 10 := rfl

/-- Nothing for reliability and consistency, all that speed gives. -/
theorem score_firstFailure : (firstFailure : PeerMetrics ℚ).score = 40 := by
  have hrate : (firstFailure : PeerMetrics ℚ).successRate = 0 := Nat.cast_zero
  have hconsistency : (firstFailure : PeerMetrics ℚ).consistency = 0 := Nat.cast_zero
  have hspeed : speed (firstFailure : PeerMetrics ℚ).averageLatency = 1 := by
    rw [speed, firstFailure, Nat.cast_zero, zero_div, sub_zero, max_eq_left zero_le_one]
  rw [score_eq, hrate, hconsistency, hspeed]
  norm_num

/-! ## One more success -/

/-- Within the latencies so far a success leaves their spread as it is. -/
theorem consistency_recordSuccess {latency : Nat} (hpos : 0 < m.successes) (hmin : m.minLatency ≤ latency)
    (hmax : latency ≤ m.maxLatency) : (m.recordSuccess latency).consistency = m.consistency := by
  have hminLatency : (m.recordSuccess latency).minLatency = m.minLatency :=
    (if_neg hpos.ne').trans (min_eq_left hmin)
  have hmaxLatency : (m.recordSuccess latency).maxLatency = m.maxLatency :=
    (if_neg hpos.ne').trans (max_eq_left hmax)
  have hne : (m.recordSuccess latency).successes ≠ 0 := Nat.succ_ne_zero m.successes
  rw [consistency, consistency, hminLatency, hmaxLatency, if_neg hpos.ne', if_neg hne]

/-- A success that is no slower than the average does not raise it. -/
theorem averageLatency_recordSuccess_le {latency : Nat} (hle : latency ≤ m.averageLatency) :
    (m.recordSuccess latency).averageLatency ≤ m.averageLatency := by
  rw [averageLatency_recordSuccess, nextTotal]
  refine Nat.div_le_of_le_mul ?_
  rw [Nat.succ_mul, Nat.mul_comm]
  exact Nat.add_le_add_left hle _

/-! ## Coherent metrics -/

/-- The success rate is that of the counts, and the least latency is at most the greatest. -/
structure Coherent (m : PeerMetrics ℚ) : Prop where
  rate_eq : m.successRate = rate m.successes m.failures
  min_le_max : m.minLatency ≤ m.maxLatency

theorem coherent_firstSuccess (latency : Nat) : (firstSuccess latency : PeerMetrics ℚ).Coherent where
  rate_eq := by rw [rate_eq]; exact (div_self one_ne_zero).symm
  min_le_max := Nat.le_refl _

theorem coherent_firstFailure : (firstFailure : PeerMetrics ℚ).Coherent where
  rate_eq := by rw [rate_eq]; exact (zero_div _).symm
  min_le_max := Nat.le_refl _

namespace Coherent

theorem recordSuccess (h : m.Coherent) (latency : Nat) : (m.recordSuccess latency).Coherent where
  rate_eq := rfl
  min_le_max := by
    show (if m.successes = 0 then latency else min m.minLatency latency) ≤
      if m.successes = 0 then latency else max m.maxLatency latency
    split
    · exact Nat.le_refl _
    · exact (min_le_left ..).trans (h.min_le_max.trans (le_max_left ..))

theorem recordFailure (h : m.Coherent) : m.recordFailure.Coherent where
  rate_eq := rfl
  min_le_max := h.min_le_max

/-- The least latency as a part of the greatest. -/
theorem consistency_eq (h : m.Coherent) (hpos : 0 < m.successes) (hmax : 0 < m.maxLatency) :
    m.consistency = m.minLatency / m.maxLatency := by
  have hne : (m.maxLatency : ℚ) ≠ 0 := Nat.cast_ne_zero.2 hmax.ne'
  rw [consistency, if_neg hpos.ne', if_pos hmax]
  show (1 : ℚ) - ((m.maxLatency - m.minLatency : Nat) : ℚ) / m.maxLatency = m.minLatency / m.maxLatency
  rw [Nat.cast_sub h.min_le_max, sub_div, div_self hne, sub_sub_cancel]

theorem consistency_bounds (h : m.Coherent) : 0 ≤ m.consistency ∧ m.consistency ≤ 1 := by
  rcases Nat.eq_zero_or_pos m.successes with hzero | hpos
  · rw [consistency, if_pos hzero]
    exact ⟨le_refl 0, zero_le_one⟩
  rcases Nat.eq_zero_or_pos m.maxLatency with hzero | hmax
  · rw [consistency, if_neg hpos.ne', if_neg (by rw [hzero]; exact Nat.lt_irrefl 0)]
    exact ⟨zero_le_one, le_refl 1⟩
  · rw [h.consistency_eq hpos hmax]
    exact ⟨by positivity, div_le_one_of_le₀ (Nat.cast_le.2 h.min_le_max) (Nat.cast_nonneg _)⟩

/-- A peer gets ten points, and up to ninety for its reliability, speed and consistency. -/
theorem score_bounds (h : m.Coherent) : 10 ≤ m.score ∧ m.score ≤ 100 := by
  obtain ⟨hconsistency, hconsistency'⟩ := h.consistency_bounds
  have hrate := rate_nonneg m.successes m.failures
  have hrate' := rate_le_one m.successes m.failures
  have hspeed := speed_nonneg m.averageLatency
  have hspeed' := speed_le_one m.averageLatency
  rw [score_eq, h.rate_eq]
  constructor <;> linarith

/-- A failure changes the rate only. -/
theorem score_recordFailure_le (h : m.Coherent) : m.recordFailure.score ≤ m.score := by
  have hrate := rate_failure_le m.successes m.failures
  have hconsistency : m.recordFailure.consistency = m.consistency := rfl
  rw [score_eq, score_eq, h.recordFailure.rate_eq, h.rate_eq, hconsistency]
  show rate m.successes (m.failures + 1) * 40 + speed m.averageLatency * 30 + _ + _ ≤ _
  linarith

theorem score_le_recordSuccess (h : m.Coherent) {latency : Nat} (hpos : 0 < m.successes)
    (hle : latency ≤ m.averageLatency) (hmin : m.minLatency ≤ latency) (hmax : latency ≤ m.maxLatency) :
    m.score ≤ (m.recordSuccess latency).score := by
  have hrate := rate_le_success m.successes m.failures
  have hspeed := speed_anti (averageLatency_recordSuccess_le hle)
  rw [score_eq, score_eq, h.rate_eq, (h.recordSuccess latency).rate_eq, consistency_recordSuccess hpos hmin hmax]
  show _ ≤ rate (m.successes + 1) m.failures * 40 + _ + _ + _
  linarith

end Coherent

/-- Whatever reports leave is coherent. -/
theorem coherent_ofReports (reports : List Report) : ∀ m : PeerMetrics ℚ, ofReports reports = some m → m.Coherent :=
  ofReports_induction (motive := fun _ m => m.Coherent) (fun _ latency => coherent_firstSuccess latency)
    (fun _ => coherent_firstFailure) (fun _ _ _ latency _ ih => ih.recordSuccess latency)
    (fun _ _ _ _ ih => ih.recordFailure) reports

end PeerMetrics

namespace NetworkContext

theorem peerScore_eq (n : NetworkContext ℚ) (id : String) :
    n.peerScore id = (n.metricsOf? id).elim 50 PeerMetrics.score := by
  rw [peerScore]
  cases n.metricsOf? id <;> rfl

theorem peerScore_record {n : NetworkContext ℚ} (h : Ordered n.peers) (r : Report) :
    (n.record r).peerScore r.peer = (PeerMetrics.note (n.metricsOf? r.peer) r).score := by
  rw [peerScore_eq, metricsOf?_record h, if_pos rfl]
  rfl

/-- **The score of a peer** after any reports is from 10 to 100, and 50 without a report of the peer. One more failure
never raises it. One more success, after an earlier one, never lowers it if it is no slower than the average and no
faster than the fastest. -/
theorem peerScore_after (reports : List Report) (id : String) :
    let n : NetworkContext ℚ := after reports
    (Report.of id reports = [] → n.peerScore id = 50) ∧
    (10 ≤ n.peerScore id ∧ n.peerScore id ≤ 100) ∧
    (n.recordFailure id).peerScore id ≤ n.peerScore id ∧
    ∀ m latency, n.metricsOf? id = some m → 0 < m.successes → latency ≤ m.averageLatency →
      m.minLatency ≤ latency → latency ≤ m.maxLatency →
      n.peerScore id ≤ (n.recordSuccess id latency).peerScore id := by
  intro n
  have hordered : Ordered n.peers := ordered_after reports
  have hcoherent : ∀ m, n.metricsOf? id = some m → m.Coherent := fun m hm =>
    PeerMetrics.coherent_ofReports _ m (metricsOf?_after (R := ℚ) reports id ▸ hm)
  have hafter : (n.recordFailure id).peerScore id = (PeerMetrics.note (n.metricsOf? id) (.failure id)).score :=
    peerScore_record hordered (.failure id)
  refine ⟨fun hnone => ?_, ?_, ?_, fun m latency hm hpos hle hmin hmax => ?_⟩
  · rw [peerScore_eq, metricsOf?_after, hnone]
    rfl
  · rw [peerScore_eq]
    cases hm : n.metricsOf? id with
    | none => norm_num
    | some m => exact (hcoherent m hm).score_bounds
  · rw [hafter, peerScore_eq]
    cases hm : n.metricsOf? id with
    | none => exact PeerMetrics.score_firstFailure.le.trans (by norm_num)
    | some m => exact (hcoherent m hm).score_recordFailure_le
  · have hafter : (n.recordSuccess id latency).peerScore id =
        (PeerMetrics.note (n.metricsOf? id) (.success id latency)).score :=
      peerScore_record hordered (.success id latency)
    rw [hafter, peerScore_eq, hm]
    exact (hcoherent m hm).score_le_recordSuccess hpos hle hmin hmax

/-- Two successes and a failure; then one more failure, or a success between the fastest and the average. -/
theorem peerScore_after_three : ∃ (n : NetworkContext ℚ) (m : PeerMetrics ℚ),
    n = after [.success "a" 100, .failure "a", .success "a" 300] ∧ n.metricsOf? "a" = some m ∧
    0 < m.successes ∧ 150 ≤ m.averageLatency ∧ m.minLatency ≤ 150 ∧ 150 ≤ m.maxLatency ∧
    (10 ≤ n.peerScore "a" ∧ n.peerScore "a" ≤ 100) ∧
    (n.recordFailure "a").peerScore "a" ≤ n.peerScore "a" ∧
    n.peerScore "a" ≤ (n.recordSuccess "a" 150).peerScore "a" ∧ n.peerScore "b" = 50 := by
  let reports : List Report := [.success "a" 100, .failure "a", .success "a" 300]
  let m : PeerMetrics ℚ := (((PeerMetrics.firstSuccess 100 : PeerMetrics ℚ).recordFailure).recordSuccess 300)
  obtain ⟨-, hbounds, hfailure, hsuccess⟩ := peerScore_after reports "a"
  obtain ⟨hnone, -⟩ := peerScore_after reports "b"
  have hm : (after reports).metricsOf? "a" = some m := rfl
  have havg : 150 ≤ m.averageLatency := show 150 ≤ 200 by decide
  have hmin : m.minLatency ≤ 150 := show 100 ≤ 150 by decide
  have hmax : 150 ≤ m.maxLatency := show 150 ≤ 300 by decide
  exact ⟨after reports, m, rfl, hm, show 0 < 2 by decide, havg, hmin, hmax, hbounds, hfailure,
    hsuccess m 150 hm (show 0 < 2 by decide) havg hmin hmax, hnone (by decide)⟩

end NetworkContext

end ShardCoding
