import Ns2.Dccp.AckVectorRun
import Ns2.Dccp.Options

namespace Ns2

namespace DCCPAckVector

/-- `none` where the source aborts. -/
def addToAckHistory (seqnum : ℕ) (v : DCCPAckVector) : Option DCCPAckVector :=
  let sent := { v with ackHist := ⟨seqnum, v.seqHead, v.ene⟩ :: v.ackHist }
  match v.ackHist with
  | [] => some sent
  | newest :: _ => if seqnum ≤ newest.seqSent then none else if v.seqHead < newest.ackNum then none else some sent

/-- `sendAckVector` with an options object. `none` where the source aborts. -/
def sendAckVector (seqnum acknum : ℕ) (options : DCCPOptions) (v : DCCPAckVector) : Option (DCCPAckVector × DCCPOptions) := do
  if acknum ≠ v.seqHead then none
  else if v.size = 0 then none
  else
    let vect ← v.getAckVector
    let type := if v.ene = 0 then DCCPOptions.ackVectorN0 else DCCPOptions.ackVectorN1
    let (result, options) := DCCPOptions.addOption type vect (BitVec.ofNat 8 v.size) options
    if result = DCCPOptions.noErr then
      let v ← v.addToAckHistory seqnum
      return (v, options)
    else none

/-- Whether a received acknowledgement is one for this entry. -/
def acknowledges (acknum : ℕ) (ackv : Option DCCPAckVector) (entry : AckHistEntry) : Bool :=
  match ackv with
  | none => acknum = entry.seqSent
  | some ackv => ackv.getState entry.seqSent = some .recv || ackv.getState entry.seqSent = some .ecn

def ackRecv (acknum : ℕ) (ackv : Option DCCPAckVector) (v : DCCPAckVector) : DCCPAckVector :=
  match v.ackHist.dropWhile fun entry => !acknowledges acknum ackv entry with
  | [] => v
  | found :: _ =>
    let left := { v with ene := v.ene ^^^ found.ene }.removePackets found.ackNum
    { left with ackHist := (v.ackHist.takeWhile fun entry => !acknowledges acknum ackv entry).map fun later =>
                  { later with ene := later.ene ^^^ found.ene } }

def setENE (ene : BitVec 8) (v : DCCPAckVector) : DCCPAckVector := { v with ene := ene }

/-- All that an agent does with its vector. -/
inductive Use
  | ask (request : AckVectorCall)
  | addPacketEcn (seqnum : ℕ) (ecn : ECNCodepoint) (addNonce : Bool)
  | setENE (ene : BitVec 8)
  | sendAckVector (seqnum acknum : ℕ) (options : DCCPOptions)
  | ackRecv (acknum : ℕ) (ackv : Option DCCPAckVector)

def use (fresh : Fresh) (v : DCCPAckVector) : Use → Option DCCPAckVector
  | .ask request => some (v.call fresh request).1
  | .addPacketEcn seqnum ecn addNonce => some (addPacketEcn fresh seqnum ecn addNonce v).2
  | .setENE ene => some (v.setENE ene)
  | .sendAckVector seqnum acknum options => (v.sendAckVector seqnum acknum options).map Prod.fst
  | .ackRecv acknum ackv => some (v.ackRecv acknum ackv)

def useMachine (fresh : Fresh) : Machine DCCPAckVector Use Unit where
  step v request := (v.use fresh request).map fun v => (v, ())

/-- The state under which `addPacket` adds a packet with this codepoint. -/
def stateOf (ecn : ECNCodepoint) : DCCPPacketState := if ecn = .ce then .ecn else .recv

def UseAdmitted (v : DCCPAckVector) : Use → Prop
  | .ask request => v.Admitted request
  | .addPacketEcn seqnum ecn _ => v.Admitted (.addPacket seqnum (stateOf ecn))
  | _ => True

def UseWritten (v : DCCPAckVector) : Use → Prop
  | .ask request => v.Written request
  | .addPacketEcn seqnum ecn _ => v.Written (.addPacket seqnum (stateOf ecn))
  | _ => True

instance (v : DCCPAckVector) : DecidablePred v.UseAdmitted
  | .ask request => inferInstanceAs (Decidable (v.Admitted request))
  | .addPacketEcn seqnum ecn _ => inferInstanceAs (Decidable (v.Admitted (.addPacket seqnum (stateOf ecn))))
  | .setENE _ | .sendAckVector _ _ _ | .ackRecv _ _ => inferInstanceAs (Decidable True)

instance (v : DCCPAckVector) : DecidablePred v.UseWritten
  | .ask request => inferInstanceAs (Decidable (v.Written request))
  | .addPacketEcn seqnum ecn _ => inferInstanceAs (Decidable (v.Written (.addPacket seqnum (stateOf ecn))))
  | .setENE _ | .sendAckVector _ _ _ | .ackRecv _ _ => inferInstanceAs (Decidable True)

/-- The vector stands for some map. -/
def Sound (v : DCCPAckVector) : Prop := ∃ items m, Encodes v items m ∧ v.ackvCons = cons

variable {fresh : Fresh} {v w : DCCPAckVector} {items : List (BitVec 8)} {m : AckMap} {seqnum acknum : ℕ} {options options' : DCCPOptions}

/-- The echo and the history have no part in what a vector stands for. -/
theorem Encodes.echo (encodes : Encodes v items m) (ene : BitVec 8) (ackHist : List AckHistEntry) :
    Encodes { v with ene := ene, ackHist := ackHist } items m where
  holds := ⟨encodes.holds.size, encodes.holds.laid, encodes.holds.positive, encodes.holds.limit, encodes.holds.head, encodes.holds.tail⟩
  states := encodes.states
  head := encodes.head
  tail := encodes.tail
  bound := encodes.bound

/-- What the second `addPacket` does beside the first one. -/
theorem addPacketEcn_eq {ecn : ECNCodepoint} {addNonce : Bool} :
    addPacketEcn fresh seqnum ecn addNonce v =
      ((addPacket fresh seqnum (stateOf ecn) nesting v).1,
        { (addPacket fresh seqnum (stateOf ecn) nesting v).2 with
          ene := if (addPacket fresh seqnum (stateOf ecn) nesting v).1 && addNonce && (ecn = .ect0 || ecn = .ect1) then
            (addPacket fresh seqnum (stateOf ecn) nesting v).2.ene ^^^ ecn.code else (addPacket fresh seqnum (stateOf ecn) nesting v).2.ene }) := by
  unfold addPacketEcn
  rw [← stateOf]
  generalize addPacket fresh seqnum (stateOf ecn) nesting v = added
  obtain ⟨result, w⟩ := added
  dsimp only
  split <;> rfl

theorem addToAckHistory_eq (sent : v.addToAckHistory seqnum = some w) : w = { v with ackHist := ⟨seqnum, v.seqHead, v.ene⟩ :: v.ackHist } := by
  unfold addToAckHistory at sent
  dsimp only at sent
  split at sent
  · exact (Option.some.inj sent).symm
  · split_ifs at sent
    exact (Option.some.inj sent).symm

/-- Where `sendAckVector` comes to its end. -/
theorem sendAckVector_eq_some : v.sendAckVector seqnum acknum options = some (w, options') ↔
    acknum = v.seqHead ∧ v.size ≠ 0 ∧ v.addToAckHistory seqnum = some w ∧
      DCCPOptions.addOption (if v.ene = 0 then DCCPOptions.ackVectorN0 else DCCPOptions.ackVectorN1) v.copied (BitVec.ofNat 8 v.size) options =
        (DCCPOptions.noErr, options') := by
  unfold sendAckVector getAckVector
  by_cases same : acknum = v.seqHead
  · by_cases empty : v.size = 0
    · simp [same, empty]
    · rw [if_neg (not_not.mpr same), if_neg empty, if_neg empty]
      simp only [Option.bind_eq_bind, Option.bind_some]
      generalize DCCPOptions.addOption _ v.copied _ options = added
      obtain ⟨result, options''⟩ := added
      by_cases good : result = DCCPOptions.noErr
      · cases v.addToAckHistory seqnum <;> simp [same, empty, good]
      · simp [good]
  · simp [same]

theorem Encodes.sendAckVector (encodes : Encodes v items m) (sent : v.sendAckVector seqnum acknum options = some (w, options')) :
    Encodes w items m := by
  obtain ⟨_, _, added, _⟩ := sendAckVector_eq_some.mp sent
  rw [addToAckHistory_eq added]
  exact encodes.echo _ _

/-- Whatever is done with a vector, it stands for some map, and its matrix stays. -/
theorem Encodes.use {request : Use} (encodes : Encodes v items m) (admitted : v.UseAdmitted request) (written : v.UseWritten request)
    (used : v.use fresh request = some w) : ∃ items' m', Encodes w items' m' ∧ w.ackvCons = v.ackvCons := by
  cases request with
  | ask request =>
    cases Option.some.inj used
    obtain ⟨items', encodes', same, _⟩ := encodes.call fresh admitted written
    exact ⟨items', _, encodes', same⟩
  | addPacketEcn seqnum ecn addNonce =>
    cases Option.some.inj used
    obtain ⟨items', encodes', same, _⟩ :
      ∃ items', Encodes (v.call fresh (.addPacket seqnum (stateOf ecn))).1 items' _ ∧ _ := encodes.call fresh admitted written
    rw [addPacketEcn_eq]
    exact ⟨items', _, encodes'.echo _ _, same⟩
  | setENE ene =>
    cases Option.some.inj used
    exact ⟨items, m, encodes.echo _ _, rfl⟩
  | sendAckVector seqnum acknum options =>
    obtain ⟨⟨w', options'⟩, sent, rfl⟩ := Option.map_eq_some_iff.mp used
    obtain ⟨_, _, added, _⟩ := sendAckVector_eq_some.mp sent
    refine ⟨items, m, encodes.sendAckVector sent, ?_⟩
    rw [addToAckHistory_eq added]
  | ackRecv acknum ackv =>
    cases Option.some.inj used
    unfold ackRecv
    split
    · exact ⟨items, m, encodes, rfl⟩
    · rename_i found _ _
      obtain ⟨left, encodes'⟩ := (encodes.echo (v.ene ^^^ found.ene) v.ackHist).removePackets found.ackNum
      exact ⟨left, _, encodes'.echo _ _, removePackets_ackvCons⟩

theorem Sound.use {request : Use} (sound : v.Sound) (admitted : v.UseAdmitted request) (written : v.UseWritten request)
    (used : v.use fresh request = some w) : w.Sound := by
  obtain ⟨items, m, encodes, same⟩ := sound
  obtain ⟨items', m', encodes', same'⟩ := encodes.use admitted written used
  exact ⟨items', m', encodes', same'.trans same⟩

theorem new_sound {n : ℕ} (positive : 0 < n) (limit : n ≤ maxAckvSize) : (new fresh n).Sound := by
  have related : Related (new fresh n) .empty := new_related positive limit
  obtain ⟨items, m, encodes, same, _⟩ := related
  exact ⟨items, m, encodes, same⟩

/-- A vector stands for a map after every run. -/
theorem run_sound {n : ℕ} {uses : List Use} {outs : List Unit} (positive : 0 < n) (limit : n ≤ maxAckvSize)
    (admitted : (useMachine fresh).Along UseAdmitted (new fresh n) uses) (written : (useMachine fresh).Along UseWritten (new fresh n) uses)
    (run : (useMachine fresh).run (new fresh n) uses = some (v, outs)) : v.Sound := by
  refine Machine.run_kept ?_ (new_sound positive limit) (admitted.and written) run
  intro w request next _ sound fine taken
  obtain ⟨x, used, same⟩ := Option.map_eq_some_iff.mp taken
  cases same
  exact sound.use fine.1 fine.2 used

end DCCPAckVector

end Ns2
