import ShardCoding.Proofs.Network.History

/-!
# The average latency of a peer

Each success divides anew what the average before it stands for, so the remainders of the divisions are lost.

* `runningMean`, `remainders` : the average after given latencies, and what its divisions have left over;
* `sum_eq` : no more is lost than the remainders; `remainders_le`, `remainders_eq_zero_iff` : how much that is, and when
  it is nothing;
* `NetworkContext.averageLatency_after` : the average of a peer against the mean; `averageLatency_ascending` : the
  average can fall behind as far as this allows; `averageLatency_reordered` : it depends on the order.
-/

namespace ShardCoding

namespace PeerMetrics

/-! ## Latencies, the last one first -/

/-- The average after successes of the given latencies, the last one first. -/
def runningMean : List Nat → Nat
  | [] => 0
  | latency :: earlier => (runningMean earlier * earlier.length + latency) / (earlier.length + 1)

/-- What the divisions have left over, one remainder for each success. -/
def remainders : List Nat → Nat
  | [] => 0
  | latency :: earlier =>
    remainders earlier + (runningMean earlier * earlier.length + latency) % (earlier.length + 1)

theorem sum_eq (latencies : List Nat) :
    latencies.sum = latencies.length * runningMean latencies + remainders latencies := by
  induction latencies with
  | nil => rfl
  | cons latency earlier ih =>
    have hdiv := Nat.div_add_mod (runningMean earlier * earlier.length + latency) (earlier.length + 1)
    rw [List.sum_cons, ih, List.length_cons, runningMean, remainders, Nat.mul_comm earlier.length]
    omega

/-- The remainder of a division by one more than the number of earlier successes is at most that number. -/
theorem remainders_le (latencies : List Nat) :
    remainders latencies ≤ latencies.length * (latencies.length - 1) / 2 := by
  induction latencies with
  | nil => exact Nat.le_refl _
  | cons latency earlier ih =>
    have hmod : (runningMean earlier * earlier.length + latency) % (earlier.length + 1) ≤ earlier.length :=
      Nat.le_of_lt_succ (Nat.mod_lt _ (Nat.succ_pos _))
    have htriangle := Nat.triangle_succ earlier.length
    rw [remainders, List.length_cons]
    omega

theorem triangle_div (n : Nat) : n * (n - 1) / 2 / n = (n - 1) / 2 := by
  rcases Nat.eq_zero_or_pos n with rfl | hpos
  · rfl
  · rw [Nat.div_right_comm, Nat.mul_div_cancel_left _ hpos]

theorem remainders_div_le (latencies : List Nat) :
    remainders latencies / latencies.length ≤ (latencies.length - 1) / 2 :=
  triangle_div latencies.length ▸ Nat.div_le_div_right (remainders_le latencies)

/-- Nothing is lost exactly if the mean was a whole number after each success. -/
theorem remainders_eq_zero_iff (latencies : List Nat) :
    remainders latencies = 0 ↔ ∀ earlier, earlier <:+ latencies → earlier.length ∣ earlier.sum := by
  induction latencies with
  | nil => simp [remainders]
  | cons latency earlier ih =>
    simp only [List.suffix_cons_iff, forall_eq_or_imp]
    rw [remainders, Nat.add_eq_zero_iff, ← ih, and_comm]
    refine and_congr_left fun hearlier => ?_
    have htotal : (latency :: earlier).sum = runningMean earlier * earlier.length + latency := by
      rw [List.sum_cons, sum_eq earlier, hearlier, Nat.add_zero, Nat.mul_comm, Nat.add_comm]
    rw [htotal, List.length_cons, Nat.dvd_iff_mod_eq_zero]

/-- The mean, rounded down, is ahead of the average by the whole part of what the remainders are to the count. -/
theorem sum_div_length {latencies : List Nat} (hpos : 0 < latencies.length) :
    latencies.sum / latencies.length = runningMean latencies + remainders latencies / latencies.length := by
  rw [sum_eq, Nat.mul_add_div hpos]

/-- The average is at most the mean, rounded down, and behind it by at most one for two successes after the first. -/
theorem runningMean_bounds {latencies : List Nat} (hpos : 0 < latencies.length) :
    runningMean latencies ≤ latencies.sum / latencies.length ∧
      latencies.sum / latencies.length ≤ runningMean latencies + (latencies.length - 1) / 2 := by
  rw [sum_div_length hpos]
  exact ⟨Nat.le_add_right .., Nat.add_le_add_left (remainders_div_le latencies) _⟩

/-- If the mean was a whole number before the last success, only the last division leaves anything over. -/
theorem remainders_lt_of_whole {latencies : List Nat} (hpos : 0 < latencies.length)
    (hwhole : ∀ n < latencies.length, n ∣ (latencies.take n).sum) :
    remainders latencies.reverse < latencies.length := by
  rcases List.eq_nil_or_concat latencies with rfl | ⟨front, last, rfl⟩
  · exact absurd hpos (Nat.lt_irrefl 0)
  rw [List.concat_eq_append, List.length_append] at hwhole ⊢
  have hzero : remainders front.reverse = 0 := by
    rw [remainders_eq_zero_iff]
    intro earlier hearlier
    have hprefix : earlier.reverse <+: front := List.reverse_suffix.1 (by rwa [List.reverse_reverse])
    have hlength := hprefix.length_le
    have hdvd := hwhole earlier.length (by rw [List.length_reverse] at hlength; exact Nat.lt_succ_of_le hlength)
    rw [List.length_reverse] at hlength
    rw [List.take_append_of_le_length hlength, ← List.length_reverse, ← List.prefix_iff_eq_take.1 hprefix,
      List.sum_reverse] at hdvd
    rwa [List.length_reverse] at hdvd
  rw [List.reverse_append, List.reverse_singleton, List.singleton_append, remainders, hzero, Nat.zero_add,
    List.length_reverse, List.length_singleton]
  exact Nat.mod_lt _ (Nat.succ_pos _)

/-! ## The average that is kept -/

variable {R : Type} [Scale R]

/-- Failures leave the average as it is, and each success goes on from the one before. -/
theorem averageLatency_ofReports (reports : List Report) : ∀ m : PeerMetrics R, ofReports reports = some m →
    m.averageLatency = runningMean (Report.latencies reports).reverse := by
  refine ofReports_induction
    (motive := fun reports m => m.averageLatency = runningMean (Report.latencies reports).reverse)
    (fun peer latency => ?_) (fun peer => rfl) (fun reports m peer latency hm ih => ?_) (fun reports m peer _ ih => ?_)
    reports
  · simp [firstSuccess, Report.latencies, Report.latency?, runningMean]
  · have hcount := ((tracks_ofReports reports).2 m hm).successes_eq
    have hreverse : (Report.latencies (reports ++ [.success peer latency])).reverse =
        latency :: (Report.latencies reports).reverse := by
      rw [Report.latencies_append]
      exact List.reverse_concat ..
    rw [hreverse, runningMean, List.length_reverse, ← ih, ← hcount]
    rfl
  · rw [Report.latencies_append]
    exact ih.trans (congrArg (runningMean ·.reverse) (List.append_nil _).symm)

end PeerMetrics

namespace NetworkContext

open PeerMetrics

variable {R : Type} [Scale R]

theorem averageLatency_metricsOf? {reports : List Report} {id : String} {m : PeerMetrics R}
    (hm : (after reports).metricsOf? id = some m) :
    m.successes = (Report.latencies (Report.of id reports)).reverse.length ∧
      m.averageLatency = runningMean (Report.latencies (Report.of id reports)).reverse := by
  rw [metricsOf?_after] at hm
  refine ⟨?_, averageLatency_ofReports _ m hm⟩
  rw [List.length_reverse]
  exact ((tracks_ofReports _).2 m hm).successes_eq

/-- **The average latency of a peer** after at least one success: the mean of its latencies, rounded down, is ahead of
the average by the whole part of what the remainders of all divisions are to the number of successes, which is at most
one for every two successes after the first. So the average is the mean, rounded down, exactly if the remainders are
less than the number of successes; they are for one or two successes, and if the mean was a whole number after each
success but the last. Reports that give the peer the same latencies in the same order leave the same average, whatever
failures and other peers they are mixed with, and reports in another order leave one that differs by no more than the
bound. -/
theorem averageLatency_after {reports : List Report} {id : String} {m : PeerMetrics R}
    (hm : (after reports).metricsOf? id = some m) (hpos : 0 < m.successes) :
    let latencies := Report.latencies (Report.of id reports)
    let mean := latencies.sum / m.successes
    let lost := remainders latencies.reverse
    m.successes = latencies.length ∧
    m.averageLatency + lost / m.successes = mean ∧
    lost / m.successes ≤ (m.successes - 1) / 2 ∧
    (m.averageLatency = mean ↔ lost < m.successes) ∧
    (m.successes ≤ 2 → m.averageLatency = mean) ∧
    ((∀ n < m.successes, n ∣ (latencies.take n).sum) → m.averageLatency = mean) ∧
    ∀ (reports' : List Report) (m' : PeerMetrics R), (after reports').metricsOf? id = some m' →
      (Report.latencies (Report.of id reports') = latencies → m'.averageLatency = m.averageLatency) ∧
      ((Report.latencies (Report.of id reports')).Perm latencies →
        m'.averageLatency ≤ m.averageLatency + (m.successes - 1) / 2 ∧
        m.averageLatency ≤ m'.averageLatency + (m.successes - 1) / 2) := by
  intro latencies mean lost
  obtain ⟨hcount, haverage⟩ := averageLatency_metricsOf? hm
  have hsum : latencies.reverse.sum = latencies.sum := List.sum_reverse _
  have hmean : m.averageLatency + lost / m.successes = mean := by
    have hdiv := sum_div_length (hcount ▸ hpos)
    rw [← haverage, ← hcount, hsum] at hdiv
    exact hdiv.symm
  have hbound : lost / m.successes ≤ (m.successes - 1) / 2 := hcount ▸ remainders_div_le latencies.reverse
  have hexact : m.averageLatency = mean ↔ lost < m.successes := by
    rw [← hmean, Nat.left_eq_add, Nat.div_eq_zero_iff_lt hpos]
  have hlength : m.successes = latencies.length := hcount.trans List.length_reverse
  refine ⟨hlength, hmean, hbound, hexact, fun htwo => ?_, fun hwhole => ?_, fun reports' m' hm' => ?_⟩
  · have hzero : lost / m.successes = 0 := Nat.le_zero.1 (hbound.trans (by omega))
    rw [← hmean, hzero, Nat.add_zero]
  · rw [hlength] at hpos hwhole hexact
    exact hexact.2 (remainders_lt_of_whole hpos hwhole)
  · obtain ⟨hcount', haverage'⟩ := averageLatency_metricsOf? hm'
    refine ⟨fun hsame => by rw [haverage, haverage', hsame], fun hperm => ?_⟩
    -- Both averages are at most the one mean, and behind it by no more than the bound.
    have hperm' := ((List.reverse_perm _).trans hperm).trans (List.reverse_perm latencies).symm
    obtain ⟨hle, hge⟩ := runningMean_bounds (hcount ▸ hpos)
    obtain ⟨hle', hge'⟩ := runningMean_bounds (hperm'.length_eq ▸ hcount ▸ hpos)
    rw [hperm'.sum_nat, hperm'.length_eq, ← haverage'] at hle' hge'
    rw [← haverage] at hle hge
    rw [hcount]
    exact ⟨hle'.trans hge, hle.trans hge'⟩

/-- A failure before two successes and a success of another peer between them: the average is the mean, rounded down. -/
theorem averageLatency_after_two : ∃ (reports : List Report) (m : PeerMetrics Float),
    reports = [.failure "b", .success "b" 7, .success "a" 90, .success "b" 4] ∧
    (after reports).metricsOf? "b" = some m ∧ 0 < m.successes ∧ m.averageLatency = (7 + 4) / 2 ∧
    ∀ m' : PeerMetrics Float, (after [.success "b" 4, .success "b" 7]).metricsOf? "b" = some m' →
      m.averageLatency ≤ m'.averageLatency + 1 / 2 := by
  let reports : List Report := [.failure "b", .success "b" 7, .success "a" 90, .success "b" 4]
  let m : PeerMetrics Float := (((firstFailure : PeerMetrics Float).recordSuccess 7).recordSuccess 4)
  have hm : (after reports).metricsOf? "b" = some m := rfl
  obtain ⟨-, -, -, -, htwo, -, hother⟩ := averageLatency_after hm (show 0 < 2 by decide)
  exact ⟨reports, m, rfl, hm, show 0 < 2 by decide, htwo (Nat.le_refl 2),
    fun m' hm' => ((hother _ m' hm').2 (by decide)).2⟩

/-! ## How far the average falls behind -/

theorem runningMean_range (n : Nat) : runningMean (List.range n).reverse = 0 := by
  induction n with
  | zero => rfl
  | succ n ih =>
    rw [List.range_succ, List.reverse_append, List.reverse_singleton, List.singleton_append, runningMean, ih,
      Nat.zero_mul, Nat.zero_add, List.length_reverse, List.length_range]
    exact Nat.div_eq_of_lt (Nat.lt_succ_self n)

theorem sum_range_eq (n : Nat) : (List.range n).sum = n * (n - 1) / 2 := by
  induction n with
  | zero => rfl
  | succ n ih =>
    rw [List.range_succ, List.sum_append, ih, List.sum_singleton]
    exact (Nat.triangle_succ n).symm

theorem latencies_of_successes (id : String) (latencies : List Nat) :
    Report.latencies (Report.of id (latencies.map (.success id))) = latencies := by
  have hown : Report.of id (latencies.map (.success id)) = latencies.map (.success id) := by
    rw [Report.of, List.filter_eq_self]
    simp [Report.peer]
  rw [hown, Report.latencies, List.filterMap_map]
  exact List.filterMap_some

/-- Latencies that rise by one from 0 keep the average at 0 for ever, as far behind the mean as it can be. -/
theorem averageLatency_ascending {id : String} {n : Nat} {m : PeerMetrics R}
    (hm : (after ((List.range n).map (.success id))).metricsOf? id = some m) :
    m.averageLatency = 0 ∧ (List.range n).sum / m.successes = (m.successes - 1) / 2 := by
  obtain ⟨hcount, haverage⟩ := averageLatency_metricsOf? hm
  rw [latencies_of_successes] at hcount haverage
  rw [List.length_reverse, List.length_range] at hcount
  rw [haverage, hcount, sum_range_eq, triangle_div]
  exact ⟨runningMean_range n, rfl⟩

/-- The same three latencies in two orders: rising they average to 0, below their mean of 1. -/
theorem averageLatency_reordered :
    ((after [.success "a" 0, .success "a" 1, .success "a" 2] : NetworkContext Float).metricsOf? "a").map
        (fun m => (m.successes, m.averageLatency)) = some (3, 0) ∧
    ((after [.success "a" 0, .success "a" 2, .success "a" 1] : NetworkContext Float).metricsOf? "a").map
        (fun m => (m.successes, m.averageLatency)) = some (3, 1) ∧
    (0 + 1 + 2) / 3 = 1 := by
  decide

end NetworkContext

end ShardCoding
