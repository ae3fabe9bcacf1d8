import Ns2.Queue.REDConservation

namespace Ns2

namespace REDQueue

/-- The average that the fair variant predicts at this arrival lets the packet pass: it is below `th_min`,
or it is not above `th_max` and the random number is above the drop probability at it. -/
def FairAdmits (s : REDQueue) (now u : ℚ) (pkt : Packet) : Prop :=
  let estimated := (s.countArrival pkt).average now
  estimated.avgtn1 < s.edp.thMin ∨ estimated.avgtn1 ≤ s.edp.thMax ∧
    estimated.edv.curMaxP * (estimated.avgtn1 - s.edp.thMin) / (s.edp.thMax - s.edp.thMin) < u

instance (s : REDQueue) (now u : ℚ) (pkt : Packet) : Decidable (s.FairAdmits now u pkt) := inferInstanceAs (Decidable (_ ∨ _ ∧ _))

variable {s t : REDQueue} {lib : Libm} {now u : ℚ} {draws : Draws} {pkt : Packet}

/-- With an empty queue the drop logic of RED itself never drops. -/
theorem judgeEarly_empty (lib : Libm) (u : ℚ) (pkt : Packet) (empty : s.qlen = 0) :
    judgeEarly lib s u pkt = (.none, pkt, { s with edv.vProb := 0, edv.old := false }) := by
  unfold judgeEarly
  rw [empty]
  simp

theorem overrule_room (room : s.qlen < s.limit) : s.overrule u .none =
    if s.fared = 1 ∧ ¬(s.avgtn1 < s.edp.thMin ∨ s.avgtn1 ≤ s.edp.thMax ∧ ¬s.dropEarlyF u) then .forced else .none := by
  unfold overrule
  dsimp only
  rw [if_neg (not_le.mpr room)]
  by_cases fair : s.fared = 1
  · rw [if_pos fair]
    split_ifs <;> grind
  · rw [if_neg fair, if_neg (fun both => fair both.1)]

/-- What is dropped at an empty queue is dropped by the fair variant. -/
theorem judge_empty (lib : Libm) (now : ℚ) (draws : Draws) (pkt : Packet) (empty : s.q = []) (positive : 0 < s.limit) :
    (judge lib s now draws pkt).2.1 = pkt ∧
      (judge lib s now draws pkt).1 = if s.fared = 1 ∧ ¬s.FairAdmits now draws.fair pkt then .forced else .none := by
  let estimated := (s.countArrival pkt).average now
  let counted := { estimated with edv.count := estimated.edv.count + 1, edv.countBytes := estimated.edv.countBytes + pkt.size }
  have estimates : Estimates (s.countArrival pkt) estimated := average_estimates _ now
  have settings : Settings s estimated := (countArrival_settings s pkt).trans estimates.settings
  have q : estimated.q = [] := estimates.q.trans ((s.countArrival_queue pkt).trans empty)
  have none : counted.qlen = 0 := by
    change measure estimated.qib estimated.q = 0
    rw [q]
    unfold measure byteLength
    split_ifs <;> rfl
  have judged : judge lib s now draws pkt = (REDQueue.overrule { counted with edv.vProb := 0, edv.old := false } draws.fair .none, pkt,
      { counted with edv.vProb := 0, edv.old := false }) := by
    change (_, _) = _
    rw [judgeEarly_empty lib draws.early pkt none]
  have limit : counted.limit = s.limit := settings.limit
  have thMin : estimated.edp.thMin = s.edp.thMin := by rw [settings.edp]
  have thMax : estimated.edp.thMax = s.edp.thMax := by rw [settings.edp]
  have fared : estimated.fared = s.fared := settings.fared
  rw [judged]
  refine ⟨rfl, ?_⟩
  have room : REDQueue.qlen { counted with edv.vProb := 0, edv.old := false } < REDQueue.limit { counted with edv.vProb := 0, edv.old := false } := by
    change counted.qlen < counted.limit
    rw [none, limit]
    exact positive
  have fair : (counted.avgtn1 < counted.edp.thMin ∨ counted.avgtn1 ≤ counted.edp.thMax ∧ ¬counted.dropEarlyF draws.fair) ↔
      s.FairAdmits now draws.fair pkt := by
    unfold dropEarlyF FairAdmits
    rw [decide_eq_true_eq, not_le, ← thMin, ← thMax]
  rw [overrule_room room]
  change (if counted.fared = 1 ∧ ¬(counted.avgtn1 < counted.edp.thMin ∨ counted.avgtn1 ≤ counted.edp.thMax ∧ ¬counted.dropEarlyF draws.fair)
    then Droptype.forced else .none) = _
  simp only [fair]
  rw [show counted.fared = s.fared from fared]

/-- The fair variant with the default parameters and thresholds of 5 and 15 packets. -/
def fair : REDQueue := { packets 5 15 with fared := 1 }

/-- Packets that arrive one by one at time 0, each sent on at once. -/
def passing (many : ℕ) : List Input := (List.range many).flatMap fun uid => [arrival uid 1000, .deque 0]

end REDQueue

end Ns2
