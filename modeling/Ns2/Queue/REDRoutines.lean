import Ns2.Queue.REDAdapt

namespace Ns2

namespace REDQueue

/-- What no routine but `reset` changes. -/
structure Settings (s t : REDQueue) : Prop where
  edp : t.edp = { s.edp with beta := t.edp.beta }
  line : t.edv.vA = s.edv.vA ∧ t.edv.vB = s.edv.vB ∧ t.edv.vC = s.edv.vC ∧ t.edv.vD = s.edv.vD
  link : t.link = s.link
  qlim : t.qlim = s.qlim
  qib : t.qib = s.qib
  deDrop : t.deDrop = s.deDrop
  dropFront : t.dropFront = s.dropFront
  dropRand : t.dropRand = s.dropRand
  ns1Compat : t.ns1Compat = s.ns1Compat
  fared : t.fared = s.fared

/-- The routine computes averages and probabilities, and neither stores nor drops. -/
structure Estimates (s t : REDQueue) : Prop where
  settings : Settings s t
  q : t.q = s.q
  pktcntPersLp : t.pktcntPersLp = s.pktcntPersLp
  dropCntPers : t.dropCntPers = s.dropCntPers

variable {s t t' : REDQueue} {lib : Libm} {now newAve u : ℚ} {draws : Draws} {pkt : Packet} {droptype : Droptype}

theorem Settings.refl (s : REDQueue) : Settings s s := ⟨rfl, ⟨rfl, rfl, rfl, rfl⟩, rfl, rfl, rfl, rfl, rfl, rfl, rfl, rfl⟩

theorem Settings.trans (first : Settings s t) (second : Settings t t') : Settings s t' where
  edp := by rw [second.edp, first.edp]
  line := by
    obtain ⟨a, b, c, d⟩ := first.line
    obtain ⟨a', b', c', d'⟩ := second.line
    exact ⟨a'.trans a, b'.trans b, c'.trans c, d'.trans d⟩
  link := second.link.trans first.link
  qlim := second.qlim.trans first.qlim
  qib := second.qib.trans first.qib
  deDrop := second.deDrop.trans first.deDrop
  dropFront := second.dropFront.trans first.dropFront
  dropRand := second.dropRand.trans first.dropRand
  ns1Compat := second.ns1Compat.trans first.ns1Compat
  fared := second.fared.trans first.fared

theorem Settings.limit (settings : Settings s t) : t.limit = s.limit := by
  unfold REDQueue.limit
  rw [settings.qib, settings.qlim, settings.edp]

theorem Settings.qlen (settings : Settings s t) (same : t.q = s.q) : t.qlen = s.qlen := by
  unfold REDQueue.qlen
  rw [settings.qib, same]

theorem Estimates.refl (s : REDQueue) : Estimates s s := ⟨.refl s, rfl, rfl, rfl⟩

theorem Estimates.trans (first : Estimates s t) (second : Estimates t t') : Estimates s t' where
  settings := first.settings.trans second.settings
  q := second.q.trans first.q
  pktcntPersLp := second.pktcntPersLp.trans first.pktcntPersLp
  dropCntPers := second.dropCntPers.trans first.dropCntPers

theorem updateMaxPFeng_estimates (s : REDQueue) (newAve : ℚ) : Estimates s (s.updateMaxPFeng newAve) := by
  unfold updateMaxPFeng
  extract_lets _ t _ t'
  have first : Estimates s t := by
    unfold t
    split_ifs <;> exact ⟨⟨rfl, ⟨rfl, rfl, rfl, rfl⟩, rfl, rfl, rfl, rfl, rfl, rfl, rfl, rfl⟩, rfl, rfl, rfl⟩
  have second : Estimates t t' := by
    unfold t'
    split_ifs <;> exact ⟨⟨rfl, ⟨rfl, rfl, rfl, rfl⟩, rfl, rfl, rfl, rfl, rfl, rfl, rfl, rfl⟩, rfl, rfl, rfl⟩
  refine first.trans (second.trans ?_)
  split_ifs <;> exact ⟨⟨rfl, ⟨rfl, rfl, rfl, rfl⟩, rfl, rfl, rfl, rfl, rfl, rfl, rfl, rfl⟩, rfl, rfl, rfl⟩

theorem updateMaxP_estimates (s : REDQueue) (newAve now : ℚ) : Estimates s (s.updateMaxP newAve now) := by
  rw [updateMaxP_eq]
  exact ⟨⟨rfl, ⟨rfl, rfl, rfl, rfl⟩, rfl, rfl, rfl, rfl, rfl, rfl, rfl, rfl⟩, rfl, rfl, rfl⟩

theorem updateMaxPYZR_estimates (s : REDQueue) (newAve now : ℚ) : Estimates s (s.updateMaxPYZR newAve now) := by
  rw [updateMaxPYZR_eq]
  exact ⟨⟨rfl, ⟨rfl, rfl, rfl, rfl⟩, rfl, rfl, rfl, rfl, rfl, rfl, rfl, rfl⟩, rfl, rfl, rfl⟩

theorem updateMaxPH_estimates (s : REDQueue) (now : ℚ) : Estimates s (s.updateMaxPH now) :=
  ⟨⟨rfl, ⟨rfl, rfl, rfl, rfl⟩, rfl, rfl, rfl, rfl, rfl, rfl, rfl, rfl⟩, rfl, rfl, rfl⟩

theorem adapt_estimates (s : REDQueue) (newAve now : ℚ) : Estimates s (s.adapt newAve now) := by
  unfold adapt
  extract_lets t t' t''
  have first : Estimates s t := by
    unfold t
    split_ifs
    · exact updateMaxPFeng_estimates s newAve
    · exact updateMaxP_estimates s newAve now
    · exact .refl s
    · exact .refl s
  have second : Estimates t t' := by
    unfold t'
    split_ifs
    · exact updateMaxPYZR_estimates t newAve now
    · exact .refl t
  have third : Estimates t' t'' := by
    unfold t''
    split_ifs
    · exact updateMaxPYZR_estimates t' newAve now
    · exact .refl t'
    · exact .refl t'
  refine first.trans (second.trans (third.trans ?_))
  split_ifs
  · exact updateMaxPH_estimates t'' now
  · exact .refl t''
  · exact .refl t''

theorem estimatorF_estimates (s : REDQueue) (nqueued : ℕ) (ave qW now : ℚ) : Estimates s (s.estimatorF nqueued ave qW now).2 := by
  unfold estimatorF getLevel
  refine Estimates.trans ?_ (updateMaxPYZR_estimates _ _ _)
  exact ⟨⟨rfl, ⟨rfl, rfl, rfl, rfl⟩, rfl, rfl, rfl, rfl, rfl, rfl, rfl, rfl⟩, rfl, rfl, rfl⟩

theorem Estimates.vAve (estimates : Estimates s t) (ave : ℚ) : Estimates s { t with edv.vAve := ave } :=
  estimates.trans ⟨⟨rfl, ⟨rfl, rfl, rfl, rfl⟩, rfl, rfl, rfl, rfl, rfl, rfl, rfl, rfl⟩, rfl, rfl, rfl⟩

theorem average_estimates (s : REDQueue) (now : ℚ) : Estimates s (s.average now) := by
  unfold average
  extract_lets m t estimated estimated'
  have awake : Estimates s t := ⟨⟨rfl, ⟨rfl, rfl, rfl, rfl⟩, rfl, rfl, rfl, rfl, rfl, rfl, rfl, rfl⟩, rfl, rfl, rfl⟩
  split_ifs
  · exact awake.trans ((estimatorF_estimates t _ _ _ now).vAve _)
  · exact awake
  · exact awake.trans ((adapt_estimates t _ now).vAve _)

theorem dropEarly_estimates (lib : Libm) (s : REDQueue) (u : ℚ) (pkt : Packet) : Estimates s (dropEarly lib s u pkt).2.2 := by
  unfold dropEarly
  dsimp only
  split_ifs <;> exact ⟨⟨rfl, ⟨rfl, rfl, rfl, rfl⟩, rfl, rfl, rfl, rfl, rfl, rfl, rfl, rfl⟩, rfl, rfl, rfl⟩

theorem judgeEarly_estimates (lib : Libm) (s : REDQueue) (u : ℚ) (pkt : Packet) : Estimates s (judgeEarly lib s u pkt).2.2 := by
  unfold judgeEarly
  dsimp only
  split_ifs
  · exact .refl s
  · exact ⟨⟨rfl, ⟨rfl, rfl, rfl, rfl⟩, rfl, rfl, rfl, rfl, rfl, rfl, rfl, rfl⟩, rfl, rfl, rfl⟩
  · exact dropEarly_estimates lib s u pkt
  · exact dropEarly_estimates lib s u pkt
  · exact ⟨⟨rfl, ⟨rfl, rfl, rfl, rfl⟩, rfl, rfl, rfl, rfl, rfl, rfl, rfl, rfl⟩, rfl, rfl, rfl⟩

/-- Up to the choice of the drop only the arrival is counted. -/
theorem judge_estimates (lib : Libm) (s : REDQueue) (now : ℚ) (draws : Draws) (pkt : Packet) :
    Estimates (s.countArrival pkt) (judge lib s now draws pkt).2.2 := by
  refine (average_estimates _ now).trans (Estimates.trans ?_ (judgeEarly_estimates lib _ draws.early pkt))
  exact ⟨⟨rfl, ⟨rfl, rfl, rfl, rfl⟩, rfl, rfl, rfl, rfl, rfl, rfl, rfl, rfl⟩, rfl, rfl, rfl⟩

theorem countArrival_settings (s : REDQueue) (pkt : Packet) : Settings s (s.countArrival pkt) := by
  unfold countArrival
  split_ifs
  · exact ⟨rfl, ⟨rfl, rfl, rfl, rfl⟩, rfl, rfl, rfl, rfl, rfl, rfl, rfl, rfl⟩
  · exact .refl s

theorem countArrival_queue (s : REDQueue) (pkt : Packet) : (s.countArrival pkt).q = s.q := by
  unfold countArrival
  split_ifs <;> rfl

theorem countDrop_estimates (s : REDQueue) (pkt : Packet) : Settings s (s.countDrop pkt) ∧ (s.countDrop pkt).q = s.q ∧
    (s.countDrop pkt).pktcntPersLp = s.pktcntPersLp ∧
    (s.countDrop pkt).dropCntPers = s.dropCntPers + if pkt.ptype ≠ ptAck then 1 else 0 := by
  unfold countDrop
  split_ifs
  · exact ⟨⟨rfl, ⟨rfl, rfl, rfl, rfl⟩, rfl, rfl, rfl, rfl, rfl, rfl, rfl, rfl⟩, rfl, rfl, rfl⟩
  · exact ⟨.refl s, rfl, rfl, rfl⟩

/-- The four ways in which `enque` ends for a packet: `t` and `out` are the state and the answer. -/
inductive Settled (s : REDQueue) (r : ℕ) (pkt : Packet) (t : REDQueue) : Droptype → Output → Prop
  | edrop (target : s.deDrop = true) (q : t.q = s.q) (counted : t.dropCntPers = s.dropCntPers) :
      Settled s r pkt t .unforced { Output.quiet with edropped := [pkt] }
  | drop (target : s.deDrop = false) (q : t.q = s.q) (counted : t.dropCntPers = s.dropCntPers + if pkt.ptype ≠ ptAck then 1 else 0) :
      Settled s r pkt t .unforced { Output.quiet with dropped := [pkt] }
  | replace (out : Packet) (picked : ({ s with q := s.q ++ [pkt] } : REDQueue).pickPacketToDrop r = some out)
      (q : t.q = (s.q ++ [pkt]).erase out) (counted : t.dropCntPers = s.dropCntPers + if out.ptype ≠ ptAck then 1 else 0) :
      Settled s r pkt t .forced { Output.quiet with dropped := [out] }
  | store (q : t.q = s.q ++ [pkt]) (counted : t.dropCntPers = s.dropCntPers) : Settled s r pkt t .none Output.quiet

theorem settle_settled {out : Output} {r : ℕ} (done : s.settle r pkt droptype = some (t, out)) :
    Settings s t ∧ t.pktcntPersLp = s.pktcntPersLp ∧ Settled s r pkt t droptype out := by
  cases droptype with
  | none =>
    cases Option.some.inj done
    exact ⟨⟨rfl, ⟨rfl, rfl, rfl, rfl⟩, rfl, rfl, rfl, rfl, rfl, rfl, rfl, rfl⟩, rfl, .store rfl rfl⟩
  | unforced =>
    rw [settle] at done
    obtain ⟨settings, q, arrivals, counted⟩ := s.countDrop_estimates pkt
    split_ifs at done with target
    · cases Option.some.inj done
      exact ⟨.refl s, rfl, .edrop target rfl rfl⟩
    · cases Option.some.inj done
      exact ⟨settings, arrivals, .drop (Bool.eq_false_iff.mpr target) q counted⟩
  | forced =>
    obtain ⟨victim, picked, rest⟩ := Option.bind_eq_some_iff.mp done
    obtain ⟨settings, q, arrivals, counted⟩ := REDQueue.countDrop_estimates { s with q := (s.q ++ [pkt]).erase victim } victim
    have stored : Settings s { s with q := (s.q ++ [pkt]).erase victim } :=
      ⟨rfl, ⟨rfl, rfl, rfl, rfl⟩, rfl, rfl, rfl, rfl, rfl, rfl, rfl, rfl⟩
    dsimp only at rest
    split_ifs at rest
    · cases Option.some.inj rest
      exact ⟨stored.trans settings, arrivals, .replace victim picked q counted⟩
    · cases Option.some.inj rest
      refine ⟨(stored.trans settings).trans ?_, arrivals, .replace victim picked q counted⟩
      exact ⟨rfl, ⟨rfl, rfl, rfl, rfl⟩, rfl, rfl, rfl, rfl, rfl, rfl, rfl, rfl⟩

/-- What a call of `enque` does: it judges the packet, perhaps marked, and settles it. -/
theorem enque_settled {out : Output} (done : enque lib s now draws pkt = some (t, out)) :
    Settings s t ∧ t.pktcntPersLp = (s.countArrival pkt).pktcntPersLp ∧
      Settled (judge lib s now draws pkt).2.2 draws.victim (judge lib s now draws pkt).2.1 t (judge lib s now draws pkt).1 out := by
  have judged := judge_estimates lib s now draws pkt
  obtain ⟨settings, arrivals, settled⟩ := settle_settled done
  exact ⟨((countArrival_settings s pkt).trans judged.settings).trans settings, arrivals.trans judged.pktcntPersLp, settled⟩

theorem deque_settings (s : REDQueue) (now : ℚ) : Settings s (s.deque now).1 := by
  unfold deque
  split
  · exact ⟨rfl, ⟨rfl, rfl, rfl, rfl⟩, rfl, rfl, rfl, rfl, rfl, rfl, rfl, rfl⟩
  · dsimp only
    split_ifs <;> exact ⟨rfl, ⟨rfl, rfl, rfl, rfl⟩, rfl, rfl, rfl, rfl, rfl, rfl, rfl, rfl⟩

theorem drain_settings (now : ℚ) (calls : ℕ) (s : REDQueue) : Settings s (drain now calls s).1 := by
  induction calls generalizing s with
  | zero => exact .refl s
  | succ calls ih =>
    have first := deque_settings s now
    unfold drain
    split
    · rename_i next taken
      rw [taken] at first
      exact first
    · rename_i next p taken
      rw [taken] at first
      exact first.trans (ih next)

end REDQueue

end Ns2
