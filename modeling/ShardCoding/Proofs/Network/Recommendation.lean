import Mathlib.Order.Basic
import Mathlib.Tactic.NormNum
import ShardCoding.Network.Selection
import ShardCoding.Scheme

/-!
# How the recommended parity follows the network

* `Level.of_mono` : levels are in the order of the values; `Thresholds.afterHealth_mono` : worse health leaves no less;
* `Thresholds.parityAt` : the recommendation by levels; `parityAt_mono_health`, `parityAt_mono_latency`,
  `parityAt_mono_loss` : it follows each of its parts as long as the running count is between floor and ceiling;
* `Thresholds.InOrder` : floor and ceilings in order, within half a word; `recommendParity_inOrder` : between them the
  recommendation stays in range and follows health, latency and loss;
* `Thresholds.standardFor` : the standard ceilings and floor, with any limits; `recommendParity_standardFor` : for which
  base counts the recommendation never falls when the network gets worse; `recommendParity_pulled_back` : base counts for
  which it does.
-/

namespace ShardCoding

variable {R : Type}

namespace Health

/-- How bad a health is; one that is not known counts as good. -/
def severity : Health → Nat
  | healthy | unknown => 0
  | degraded => 1
  | unhealthy => 2

instance : Preorder Health := Preorder.lift severity

instance : DecidableLE Health := fun h h' => inferInstanceAs (Decidable (h.severity ≤ h'.severity))

end Health

namespace Level

/-- Low, middle, high. -/
def rank : Level → Nat
  | low => 0
  | middle => 1
  | high => 2

instance : Preorder Level := Preorder.lift rank

instance : DecidableLE Level := fun l l' => inferInstanceAs (Decidable (l.rank ≤ l'.rank))

theorem low_le (l : Level) : low ≤ l := Nat.zero_le l.rank

theorem le_high (l : Level) : l ≤ high := by cases l <;> decide

/-- A higher value is on no lower level. -/
theorem of_mono [Preorder R] [DecidableLT R] (low high : R) {a b : R} (h : a ≤ b) : of low high a ≤ of low high b := by
  by_cases hb : high < b
  · rw [of, of, if_pos hb]
    exact le_high _
  by_cases hlow : b < low
  · have ha : ¬ high < a := fun ha => hb (ha.trans_le h)
    rw [of, of, if_neg ha, if_pos (h.trans_lt hlow)]
    exact low_le _
  · have ha : ¬ high < a := fun ha => hb (ha.trans_le h)
    rw [of, of, if_neg ha, if_neg hb, if_neg hlow]
    split
    · exact low_le _
    · exact le_refl _

end Level

namespace Thresholds

variable {t : Thresholds R} {p q base : Nat} {h h' : Health} {l l' : Level}

/-! ## One rule -/

theorem afterLevel_mono (t : Thresholds R) (hpq : p ≤ q) (l : Level) : t.afterLevel p l ≤ t.afterLevel q l := by
  cases l <;> simp only [afterLevel] <;> omega

/-- Between floor and ceiling a higher level never leaves less. -/
theorem afterLevel_mono_level (hmin : t.minParity ≤ p) (hmax : p ≤ t.maxParity) (hl : l ≤ l') :
    t.afterLevel p l ≤ t.afterLevel p l' := by
  have hrank : l.rank ≤ l'.rank := hl
  cases l <;> cases l' <;> simp only [afterLevel, Level.rank] at hrank ⊢ <;> omega

theorem minParity_le_afterLevel (hrange : t.minParity ≤ t.maxParity) (hmin : t.minParity ≤ p) (l : Level) :
    t.minParity ≤ t.afterLevel p l := by
  cases l <;> simp only [afterLevel] <;> omega

theorem afterLevel_le_maxParity (hrange : t.minParity ≤ t.maxParity) (hmax : p ≤ t.maxParity) (l : Level) :
    t.afterLevel p l ≤ t.maxParity := by
  cases l <;> simp only [afterLevel] <;> omega

/-- From one health to a worse one the count never falls up to the ceiling that binds it there. -/
theorem afterHealth_mono (hpos : 0 < base) (hrange : t.degradedMaxParity ≤ t.maxParity) :
    t.afterHealth base .degraded ≤ t.afterHealth base .unhealthy ∧
      (base ≤ t.degradedMaxParity → t.afterHealth base .healthy ≤ t.afterHealth base .degraded) ∧
      (base ≤ t.maxParity → t.afterHealth base .healthy ≤ t.afterHealth base .unhealthy) := by
  simp only [afterHealth]
  omega

/-! ## All three rules -/

/-- The recommendation, by health and by the levels of latency and loss. -/
def parityAt (t : Thresholds R) (base : Nat) (h : Health) (latency loss : Level) : Nat :=
  t.afterLevel (t.afterLevel (t.afterHealth base h) latency) loss

theorem recommendParity_eq [LT R] [DecidableLT R] (t : Thresholds R) (base : Nat) (c : Conditions R) :
    t.recommendParity base c = t.parityAt base c.health (t.latencyLevel c) (t.lossLevel c) := rfl

theorem parityAt_mono_health (hh : t.afterHealth base h ≤ t.afterHealth base h') (latency loss : Level) :
    t.parityAt base h latency loss ≤ t.parityAt base h' latency loss :=
  t.afterLevel_mono (t.afterLevel_mono hh latency) loss

theorem parityAt_mono_latency (hmin : t.minParity ≤ t.afterHealth base h) (hmax : t.afterHealth base h ≤ t.maxParity)
    (hl : l ≤ l') (loss : Level) : t.parityAt base h l loss ≤ t.parityAt base h l' loss :=
  t.afterLevel_mono (afterLevel_mono_level hmin hmax hl) loss

theorem parityAt_mono_loss (hmin : t.minParity ≤ t.afterHealth base h) (hmax : t.afterHealth base h ≤ t.maxParity)
    (latency : Level) (hl : l ≤ l') : t.parityAt base h latency l ≤ t.parityAt base h latency l' := by
  have hrange := hmin.trans hmax
  exact afterLevel_mono_level (minParity_le_afterLevel hrange hmin latency)
    (afterLevel_le_maxParity hrange hmax latency) hl

/-! ## Ceilings and floor in order -/

/-- The floor is at most the ceiling for degraded health, that is at most the other ceiling, and what it bounds can be
doubled in a word. -/
structure InOrder (t : Thresholds R) : Prop where
  min_le_degraded : t.minParity ≤ t.degradedMaxParity
  degraded_le_max : t.degradedMaxParity ≤ t.maxParity
  max_lt : t.maxParity < 2 ^ 63

namespace InOrder

theorem min_le_max (ht : t.InOrder) : t.minParity ≤ t.maxParity := ht.min_le_degraded.trans ht.degraded_le_max

theorem minParity_le_afterHealth (ht : t.InOrder) (hmin : t.minParity ≤ base) (h : Health) :
    t.minParity ≤ t.afterHealth base h := by
  have hdegraded := ht.min_le_degraded
  have hmax := ht.min_le_max
  cases h <;> simp only [afterHealth] <;> omega

theorem afterHealth_le_maxParity (ht : t.InOrder) (hmax : base ≤ t.maxParity) (h : Health) :
    t.afterHealth base h ≤ t.maxParity := by
  have hdegraded := ht.degraded_le_max
  cases h <;> simp only [afterHealth] <;> omega

theorem afterHealth_mono_health (ht : t.InOrder) (hpos : 0 < base) (hbase : base ≤ t.degradedMaxParity)
    (hh : h ≤ h') : t.afterHealth base h ≤ t.afterHealth base h' := by
  obtain ⟨hworse, hdegraded, hunhealthy⟩ := afterHealth_mono hpos ht.degraded_le_max
  have hseverity : h.severity ≤ h'.severity := hh
  have hceiling := hbase.trans ht.degraded_le_max
  cases h <;> cases h' <;> simp only [afterHealth, Health.severity] at hworse hdegraded hunhealthy hseverity ⊢ <;> omega

end InOrder

section

variable [LT R] [DecidableLT R]

/-- The running count: the base, and what health, latency and loss leave in turn. -/
def running (t : Thresholds R) (base : Nat) (c : Conditions R) : List Nat :=
  let byHealth := t.afterHealth base c.health
  let byLatency := t.afterLevel byHealth (t.latencyLevel c)
  [base, byHealth, byLatency, t.afterLevel byLatency (t.lossLevel c)]

theorem recommendParity_mem_running (t : Thresholds R) (base : Nat) (c : Conditions R) :
    t.recommendParity base c ∈ t.running base c := by
  simp [running, recommendParity]

/-- What health and each level keep, the running count keeps. -/
theorem forall_mem_running {P : Nat → Prop} {c : Conditions R} (hbase : P base)
    (hhealth : P (t.afterHealth base c.health)) (hlevel : ∀ q l, P q → P (t.afterLevel q l)) :
    ∀ q ∈ t.running base c, P q := by
  simp only [running, List.forall_mem_cons]
  have hlatency := hlevel _ (t.latencyLevel c) hhealth
  exact ⟨hbase, hhealth, hlatency, hlevel _ (t.lossLevel c) hlatency, nofun⟩

namespace InOrder

theorem minParity_le_running (ht : t.InOrder) (hmin : t.minParity ≤ base) (c : Conditions R) :
    ∀ q ∈ t.running base c, t.minParity ≤ q :=
  forall_mem_running hmin (ht.minParity_le_afterHealth hmin c.health)
    fun _ l hq => minParity_le_afterLevel ht.min_le_max hq l

theorem running_le_maxParity (ht : t.InOrder) (hmax : base ≤ t.maxParity) (c : Conditions R) :
    ∀ q ∈ t.running base c, q ≤ t.maxParity :=
  forall_mem_running hmax (ht.afterHealth_le_maxParity hmax c.health)
    fun _ l hq => afterLevel_le_maxParity ht.min_le_max hq l

end InOrder

/-- **Range and direction of the recommendation**, for any ceilings and floor in order: from a base between the floor
and the ceiling it stays between them, and never falls when latency or loss goes to a higher level. From a positive base
up to the ceiling for degraded health it never falls when health gets worse. No count on the way is too large to be
doubled in a word. -/
theorem recommendParity_inOrder {t : Thresholds R} (ht : t.InOrder) :
    (∀ base, t.minParity ≤ base → base ≤ t.maxParity →
      (∀ c, t.minParity ≤ t.recommendParity base c ∧ t.recommendParity base c ≤ t.maxParity) ∧
      ∀ c c', c.health = c'.health → t.latencyLevel c ≤ t.latencyLevel c' → t.lossLevel c ≤ t.lossLevel c' →
        t.recommendParity base c ≤ t.recommendParity base c') ∧
    (∀ base, 1 ≤ base → base ≤ t.degradedMaxParity →
      ∀ c c', c.health ≤ c'.health → t.latencyLevel c = t.latencyLevel c' → t.lossLevel c = t.lossLevel c' →
        t.recommendParity base c ≤ t.recommendParity base c') ∧
    ∀ base, base ≤ t.maxParity → ∀ c, ∀ p ∈ t.running base c, p * 2 < wordLimit := by
  refine ⟨fun base hmin hmax => ⟨fun c => ?_, fun c c' hhealth hlatency hloss => ?_⟩,
    fun base hpos hbase c c' hhealth hlatency hloss => ?_, fun base hmax c p hp => ?_⟩
  · have hlast := t.recommendParity_mem_running base c
    exact ⟨ht.minParity_le_running hmin c _ hlast, ht.running_le_maxParity hmax c _ hlast⟩
  · have hfloor := ht.minParity_le_afterHealth hmin c.health
    have hceiling := ht.afterHealth_le_maxParity hmax c.health
    calc t.recommendParity base c
        = t.parityAt base c.health (t.latencyLevel c) (t.lossLevel c) := recommendParity_eq ..
      _ ≤ t.parityAt base c.health (t.latencyLevel c') (t.lossLevel c) :=
          parityAt_mono_latency hfloor hceiling hlatency _
      _ ≤ t.parityAt base c.health (t.latencyLevel c') (t.lossLevel c') :=
          parityAt_mono_loss hfloor hceiling _ hloss
      _ = t.recommendParity base c' := by rw [recommendParity_eq, hhealth]
  · rw [recommendParity_eq, recommendParity_eq, hlatency, hloss]
    exact parityAt_mono_health (ht.afterHealth_mono_health hpos hbase hhealth) _ _
  · have hle := ht.running_le_maxParity hmax c p hp
    have hmaxWord := ht.max_lt
    show p * 2 < 2 ^ 64
    omega

end

/-- Narrow ceilings and a high floor, with a base on the ceiling for degraded health. -/
theorem recommendParity_inOrder_narrow : ∃ t : Thresholds ℚ,
    t = ⟨5, 4, 3, 500, 100, 1 / 10, 1 / 100⟩ ∧ t.InOrder ∧
    3 ≤ t.recommendParity 4 ⟨.unhealthy, 50, 1 / 200⟩ ∧ t.recommendParity 4 ⟨.unhealthy, 50, 1 / 200⟩ ≤ 5 ∧
    t.recommendParity 4 ⟨.degraded, 50, 1 / 200⟩ ≤ t.recommendParity 4 ⟨.degraded, 700, 1 / 20⟩ ∧
    t.recommendParity 4 ⟨.unknown, 700, 1 / 20⟩ ≤ t.recommendParity 4 ⟨.unhealthy, 700, 1 / 20⟩ := by
  let t : Thresholds ℚ := ⟨5, 4, 3, 500, 100, 1 / 10, 1 / 100⟩
  have ht : t.InOrder := ⟨by decide, by decide, by decide⟩
  obtain ⟨hrange, hhealth, -⟩ := recommendParity_inOrder ht
  obtain ⟨hrange, hlevels⟩ := hrange 4 (by decide) (by decide)
  exact ⟨t, rfl, ht, (hrange _).1, (hrange _).2, hlevels _ _ rfl (by decide +kernel) (by decide +kernel),
    hhealth 4 (by decide) (by decide) _ _ (by decide) rfl rfl⟩

/-! ## The standard ceilings and floor -/

/-- The standard ceilings and floor, with any limits of latency and loss. -/
def standardFor (highLatency lowLatency highLoss lowLoss : R) : Thresholds R where
  maxParity := standard.maxParity
  degradedMaxParity := standard.degradedMaxParity
  minParity := standard.minParity
  highLatency := highLatency
  lowLatency := lowLatency
  highLoss := highLoss
  lowLoss := lowLoss

theorem standard_eq : standard = standardFor 500 100 0.1 0.01 := rfl

section

variable (highLatency lowLatency highLoss lowLoss : R)

/-- Where health changes the count, it leaves it between floor and ceiling. -/
theorem afterHealth_standardFor (hbase : 0 < base) (hh : h = .degraded ∨ h = .unhealthy ∨ 2 ≤ base ∧ base ≤ 8) :
    2 ≤ (standardFor highLatency lowLatency highLoss lowLoss).afterHealth base h ∧
      (standardFor highLatency lowLatency highLoss lowLoss).afterHealth base h ≤ 8 := by
  cases h <;> simp only [afterHealth, standardFor, standard, reduceCtorEq, true_or, false_or] at hh ⊢ <;> omega

/-- **The recommendation follows the network**, with the standard ceilings and floor: the parity count never falls from
degraded to unhealthy, from healthy to degraded for a base of at most 6, and from healthy to unhealthy for one of at
most 8. It never falls when latency or loss rises, whatever the base if the network is degraded or unhealthy, and for a
base from 2 to 8 if it is healthy. These bounds are exact: with every other base some rule pulls the count back. -/
theorem recommendParity_standardFor [Preorder R] [DecidableLT R] (hbase : 0 < base) :
    let t : Thresholds R := standardFor highLatency lowLatency highLoss lowLoss
    let parity := fun h latency loss => t.recommendParity base ⟨h, latency, loss⟩
    (∀ latency loss, parity .degraded latency loss ≤ parity .unhealthy latency loss ∧
      (base ≤ 6 → parity .healthy latency loss ≤ parity .degraded latency loss) ∧
      (base ≤ 8 → parity .healthy latency loss ≤ parity .unhealthy latency loss)) ∧
    (∀ h, h = .degraded ∨ h = .unhealthy ∨ 2 ≤ base ∧ base ≤ 8 →
      (∀ latency latency' loss, latency ≤ latency' → parity h latency loss ≤ parity h latency' loss) ∧
      (∀ latency loss loss', loss ≤ loss' → parity h latency loss ≤ parity h latency loss')) ∧
    ((∀ l l', t.parityAt base .healthy l l' ≤ t.parityAt base .degraded l l') → base ≤ 6) ∧
    ((∀ l l', t.parityAt base .healthy l l' ≤ t.parityAt base .unhealthy l l') → base ≤ 8) ∧
    ((∀ l l' loss, l ≤ l' → t.parityAt base .healthy l loss ≤ t.parityAt base .healthy l' loss) →
      2 ≤ base ∧ base ≤ 8) ∧
    ((∀ latency l l', l ≤ l' → t.parityAt base .healthy latency l ≤ t.parityAt base .healthy latency l') →
      2 ≤ base ∧ base ≤ 8) := by
  intro t parity
  have hparity : ∀ h latency loss, parity h latency loss =
      t.parityAt base h (t.latencyLevel ⟨h, latency, loss⟩) (t.lossLevel ⟨h, latency, loss⟩) := fun h latency loss =>
    recommendParity_eq t base ⟨h, latency, loss⟩
  have hceilings : t.degradedMaxParity ≤ t.maxParity := show 6 ≤ 8 by decide
  obtain ⟨hworse, hdegraded, hunhealthy⟩ := afterHealth_mono hbase hceilings
  simp only [hparity]
  refine ⟨fun latency loss => ⟨?_, fun hle => ?_, fun hle => ?_⟩, fun h hh => ?_, fun hall => ?_, fun hall => ?_,
    fun hall => ?_, fun hall => ?_⟩
  · exact parityAt_mono_health hworse _ _
  · exact parityAt_mono_health (hdegraded hle) _ _
  · exact parityAt_mono_health (hunhealthy hle) _ _
  · obtain ⟨hmin, hmax⟩ := afterHealth_standardFor highLatency lowLatency highLoss lowLoss hbase hh
    exact ⟨fun latency latency' loss hl => parityAt_mono_latency hmin hmax (Level.of_mono _ _ hl) _,
      fun latency loss loss' hl => parityAt_mono_loss hmin hmax _ (Level.of_mono _ _ hl)⟩
  · have hmiddle := hall .middle .middle
    simp only [t, parityAt, afterLevel, afterHealth, standardFor, standard] at hmiddle
    omega
  · have hmiddle := hall .middle .middle
    simp only [t, parityAt, afterLevel, afterHealth, standardFor, standard] at hmiddle
    omega
  · have hlow := hall .low .middle .middle (Level.low_le _)
    have hhigh := hall .middle .high .middle (Level.le_high _)
    simp only [t, parityAt, afterLevel, afterHealth, standardFor, standard] at hlow hhigh
    omega
  · have hlow := hall .middle .low .middle (Level.low_le _)
    have hhigh := hall .middle .middle .high (Level.le_high _)
    simp only [t, parityAt, afterLevel, afterHealth, standardFor, standard] at hlow hhigh
    omega

end

/-- From the base of a code with six parity shards: worse health, then higher latency. -/
theorem recommendParity_standardFor_six :
    let t : Thresholds ℚ := standardFor 500 100 (1 / 10) (1 / 100)
    t.recommendParity 6 ⟨.healthy, 700, 1 / 200⟩ ≤ t.recommendParity 6 ⟨.degraded, 700, 1 / 200⟩ ∧
      t.recommendParity 6 ⟨.healthy, 50, 1 / 200⟩ ≤ t.recommendParity 6 ⟨.healthy, 700, 1 / 200⟩ := by
  obtain ⟨hhealth, hvalues, -⟩ :=
    recommendParity_standardFor (500 : ℚ) 100 (1 / 10) (1 / 100) (show 0 < 6 by decide)
  refine ⟨(hhealth 700 (1 / 200)).2.1 (by decide), ?_⟩
  exact (hvalues .healthy (Or.inr (Or.inr ⟨by decide, by decide⟩))).1 50 700 (1 / 200) (by norm_num)

/-- Above the ceiling for degraded health the count falls when the network gets worse; below the floor and above the
ceiling, it falls when latency or loss rises. -/
theorem recommendParity_pulled_back :
    let t : Thresholds ℚ := standardFor 500 100 (1 / 10) (1 / 100)
    (t.recommendParity 7 ⟨.healthy, 200, 1 / 20⟩ = 7 ∧ t.recommendParity 7 ⟨.degraded, 200, 1 / 20⟩ = 6) ∧
    (t.recommendParity 1 ⟨.healthy, 50, 1 / 20⟩ = 2 ∧ t.recommendParity 1 ⟨.healthy, 200, 1 / 20⟩ = 1) ∧
    (t.recommendParity 9 ⟨.healthy, 200, 1 / 20⟩ = 9 ∧ t.recommendParity 9 ⟨.healthy, 200, 1 / 5⟩ = 8) := by
  decide +kernel

end Thresholds

end ShardCoding
