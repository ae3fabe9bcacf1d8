import Ns2.Routing.LsAcks

namespace Ns2

def neighbors (links : List LsLinkState) : List ℕ := links.map LsLinkState.neighborId

variable {own : Bool} {links news olds : List LsLinkState} {link : LsLinkState}

theorem updateLink_neighbors (known : link.neighborId ∈ neighbors links) :
    neighbors (updateLink own links link).1 = neighbors links := by
  induction links with
  | nil => exact absurd known List.not_mem_nil
  | cons old rest ih =>
    unfold updateLink
    by_cases hit : link.neighborId = old.neighborId
    · rw [if_pos hit]
      rfl
    · rw [if_neg hit]
      have later : link.neighborId ∈ neighbors rest := (List.mem_cons.mp known).resolve_left hit
      exact congrArg (old.neighborId :: ·) (ih later)

theorem updateLinks_fst (old new : List LsLinkState) :
    (updateLinks own old new).1 = new.foldl (fun links link => (updateLink own links link).1) old := by
  unfold updateLinks
  generalize false = changed
  induction new generalizing old changed with
  | nil => rfl
  | cons link new ih => exact ih _ _

theorem updateLinks_neighbors (known : ∀ link ∈ news, link.neighborId ∈ neighbors olds) :
    neighbors (updateLinks own olds news).1 = neighbors olds := by
  rw [updateLinks_fst]
  refine Sweep.foldl_kept (P := fun links => neighbors links = neighbors olds) ?_ rfl
  intro links link member same
  exact (updateLink_neighbors (same.symm ▸ known link member)).trans same

/-- The link of the list that has the neighbor is replaced. -/
theorem updateLink_hit {front : List LsLinkState} {old : LsLinkState} (absent : link.neighborId ∉ neighbors front)
    (hit : link.neighborId = old.neighborId) : (updateLink false (front ++ old :: links) link).1 = front ++ link :: links := by
  induction front with
  | nil =>
    rw [List.nil_append, updateLink, if_pos hit]
    dsimp only
    rw [← hit]
    rfl
  | cons first front ih =>
    obtain ⟨other, later⟩ := not_or.mp fun either => absent (List.mem_cons.mpr either)
    rw [List.cons_append, updateLink, if_neg other]
    exact congrArg (first :: ·) (ih later)

/-- Where both lists have the same neighbors, each once, the new one takes the place of the old one. -/
theorem updateLinks_aligned (same : neighbors olds = neighbors news) (distinct : (neighbors news).Nodup) :
    (updateLinks false olds news).1 = news := by
  have whole : ∀ front olds news : List LsLinkState, neighbors olds = neighbors news → (neighbors (front ++ news)).Nodup →
      news.foldl (fun links link => (updateLink false links link).1) (front ++ olds) = front ++ news := by
    intro front olds news
    induction news generalizing front olds with
    | nil =>
      intro same _
      rw [List.map_eq_nil_iff.mp same]
      rfl
    | cons link news ih =>
      intro same distinct
      obtain ⟨old, rest, rfl, hit, same'⟩ := List.map_eq_cons_iff.mp same
      have absent : link.neighborId ∉ neighbors front := by
        intro member
        unfold neighbors at distinct member
        rw [List.map_append, List.map_cons] at distinct
        exact List.disjoint_of_nodup_append distinct member List.mem_cons_self
      rw [List.foldl_cons, updateLink_hit absent hit.symm]
      have step := ih (front ++ [link]) rest same' (by rwa [List.append_assoc])
      rwa [List.append_assoc, List.append_assoc] at step
  rw [updateLinks_fst]
  exact whole [] olds news same distinct

/-- Every list of the database has the neighbors of its node. -/
def Shows (shape : ℕ → List ℕ) (db : LsTopoMap) : Prop := ∀ o list, db.find o = some list → neighbors list = shape o

/-- Every LSA with link states has those that it was made of. -/
def Held (shape : ℕ → List ℕ) (center : LsMessageCenter) (made : U32 → List LsLinkState) : Prop :=
  ∀ k msg list, center.lsa_messages.find k = some msg → msg.content = .lsl list → neighbors list = shape msg.originNodeId ∧ made k = list

variable {shape : ℕ → List ℕ} {db : LsTopoMap} {list : List LsLinkState} {o my : ℕ}

theorem Shows.set (shows : Shows shape db) (fits : neighbors list = shape o) : Shows shape (db.set o list) := by
  intro n other found
  rw [SortedMap.find_set] at found
  split_ifs at found with own
  · cases Option.some.inj found
    exact fits.trans (congrArg shape own.symm)
  · exact shows n other found

theorem Shows.update (shows : Shows shape db) (known : ∀ link ∈ list, link.neighborId ∈ shape o)
    (fits : db.find o = none → neighbors list = shape o) : Shows shape (db.update my o list).1 := by
  unfold LsTopoMap.update
  rcases Option.eq_none_or_eq_some (db.find o) with none | ⟨old, there⟩
  · rw [none]
    dsimp only
    rw [SortedMap.insert, none]
    exact shows.set (fits none)
  · rw [there]
    have same := shows o old there
    exact shows.set ((updateLinks_neighbors (same.symm ▸ known)).trans same)

/-- An update with the link states of another node leaves just these. -/
theorem Shows.update_find (shows : Shows shape db) (distinct : (shape o).Nodup) (other : o ≠ my) (fits : neighbors list = shape o) :
    (db.update my o list).1.find o = some list := by
  unfold LsTopoMap.update
  rcases Option.eq_none_or_eq_some (db.find o) with none | ⟨old, there⟩
  · rw [none]
    dsimp only
    rw [SortedMap.find_insert, if_pos rfl, none]
    rfl
  · rw [there]
    dsimp only
    rw [SortedMap.find_set, if_pos rfl, decide_eq_false other,
      updateLinks_aligned ((shows o old there).trans fits.symm) (fits.symm ▸ distinct)]

namespace LsLocal

structure Fits (shape : ℕ → List ℕ) (l : LsLocal) : Prop where
  sorted : l.center.Sorted
  shows : Shows shape l.router.linkStateDatabase
  held : Held shape l.center l.made

variable {l l' mid : LsLocal} {peerId senderId nbrId origin : ℕ} {msg made : LsMessage} {type : LsMessageType} {seq : U32}

theorem Fits.of_same (fits : l.Fits shape) (sorted : l'.center.Sorted)
    (database : l'.router.linkStateDatabase = l.router.linkStateDatabase)
    (center : l'.center.lsa_messages = l.center.lsa_messages) (made : l'.made = l.made) : l'.Fits shape := by
  refine ⟨sorted, database ▸ fits.shows, ?_⟩
  intro k msg list found content
  rw [made]
  exact fits.held k msg list (center ▸ found) content

/-- What a message that was just made and written leaves of the others. -/
theorem newMessage_held {c center : LsMessageCenter} {notes : U32 → List LsLinkState} (msg : LsMessage) (held : Held shape c notes)
    (advert : type = .lsa ∨ type = .tpm) (taken : c.newMessage origin type = some (center, made)) (id : msg.messageId = made.messageId)
    (kind : msg.type = type) (content : ∀ list, msg.content = .lsl list → neighbors list = shape msg.originNodeId)
    {note : List LsLinkState} (same : ∀ list, msg.content = .lsl list → note = list) :
    Held shape (center.write msg) (Function.update notes made.messageId note) := by
  have place : (center.write msg).lsa_messages = center.lsa_messages.set made.messageId msg := by
    rw [LsMessageCenter.write, if_pos (kind ▸ advert), id]
  have others : ∀ k m, k ≠ made.messageId → center.lsa_messages.find k = some m → c.lsa_messages.find k = some m := by
    intro k m other found
    unfold LsMessageCenter.newMessage at taken
    dsimp only at taken
    rw [if_pos advert] at taken
    split_ifs at taken <;>
    · cases Option.some.inj taken
      rw [SortedMap.find_set, if_neg other] at found
      exact LsMessageCenter.recycle_find found
  intro k m list found inside
  rw [place, SortedMap.find_set] at found
  by_cases new : k = made.messageId
  · rw [if_pos new] at found
    cases Option.some.inj found
    rw [new, Function.update_self]
    exact ⟨content list inside, same list inside⟩
  · rw [if_neg new] at found
    rw [Function.update_of_ne new]
    exact held k m list (others k m new found) inside

theorem sendMessage_fits (fits : l.Fits shape) (destId : ℕ) (msgId : U32) : (l.sendMessage destId msgId).Fits shape := by
  unfold sendMessage
  split_ifs
  · exact fits.of_same fits.sorted rfl rfl rfl
  · exact fits

/-- A message that goes out, or to the buffer, leaves the databases and the messages alone. -/
theorem out_fits (fits : l.Fits shape) (peerId : ℕ) (msg : LsMessage) (msgId : U32) :
    ((l.messageOut peerId msg).sendMessage peerId msgId).Fits shape :=
  sendMessage_fits (l := l.messageOut peerId msg) (fits.of_same fits.sorted rfl rfl rfl) peerId msgId

theorem sendAck_same (ack : type = .lsaAck ∨ type = .tpmAck) (sent : l.sendAck nbrId type origin seq = some l') :
    l'.center.lsa_messages = l.center.lsa_messages ∧ l'.made = l.made ∧ l'.router = l.router := by
  obtain ⟨⟨center, made⟩, taken, rest⟩ := Option.bind_eq_some_iff.mp sent
  cases Option.some.inj rest
  have other : ¬ (type = .lsa ∨ type = .tpm) := by
    rcases ack with rfl | rfl <;> simp
  unfold LsMessageCenter.newMessage at taken
  dsimp only at taken
  rw [if_neg other] at taken
  unfold sendMessage LsMessageCenter.write
  split_ifs at taken <;>
  · cases Option.some.inj taken
    rw [if_neg other]
    split_ifs <;> exact ⟨rfl, rfl, rfl⟩

theorem sendAck_fits (fits : l.Fits shape) (ack : type = .lsaAck ∨ type = .tpmAck) (sent : l.sendAck nbrId type origin seq = some l') :
    l'.Fits shape := by
  obtain ⟨center, made, router⟩ := sendAck_same ack sent
  exact fits.of_same (sendAck_keeps fits.sorted ack sent).1.sorted (congrArg LsRouter.linkStateDatabase router) center made

theorem forward_fits (fits : l.Fits shape) : (forward senderId msg l peerId).Fits shape := by
  unfold forward
  split_ifs
  · exact fits
  · exact out_fits fits peerId msg msg.messageId
  · exact fits

/-- What the sending on of a message changes: the manager and the messages sent. -/
theorem forward_same : (forward senderId msg l peerId).router = { l.router with
    ackManager := (forward senderId msg l peerId).router.ackManager } ∧ (forward senderId msg l peerId).made = l.made := by
  unfold forward sendMessage messageOut
  split_ifs <;> exact ⟨rfl, rfl⟩

theorem forwards_same (peers : List ℕ) : (peers.foldl (forward senderId msg) l).router = { l.router with
    ackManager := (peers.foldl (forward senderId msg) l).router.ackManager } ∧ (peers.foldl (forward senderId msg) l).made = l.made := by
  refine Sweep.foldl_kept (P := fun t : LsLocal => t.router = { l.router with ackManager := t.router.ackManager } ∧ t.made = l.made) ?_
    ⟨rfl, rfl⟩
  intro t peerId _ ⟨router, made⟩
  obtain ⟨router', made'⟩ : (forward senderId msg t peerId).router = _ ∧ _ := forward_same
  refine ⟨?_, made'.trans made⟩
  rw [router', router]

/-- A message goes on to every peer but its originator and its sender over a link that is up. -/
theorem forwards_sends {peers : List ℕ} (inside : ∀ p ∈ peers, p ∈ l.router.peerIdList) {p : ℕ} (member : p ∈ peers)
    (notOrigin : p ≠ msg.originNodeId) (notSender : p ≠ senderId) (isUp : l.router.isUp p = true) :
    (p, msg.messageId) ∈ (peers.foldl (forward senderId msg) l).sends := by
  induction peers generalizing l with
  | nil => exact absurd member List.not_mem_nil
  | cons q peers ih =>
    obtain ⟨router, _⟩ : (forward senderId msg l q).router = _ ∧ _ := forward_same
    rcases List.mem_cons.mp member with rfl | later
    · have sent : (p, msg.messageId) ∈ (forward senderId msg l p).sends := by
        rw [forward, if_neg (not_or.mpr ⟨notOrigin, notSender⟩), if_pos isUp]
        exact mem_sendMessage _ _ (inside p List.mem_cons_self)
      rw [List.foldl_cons]
      refine Sweep.foldl_kept (P := fun t : LsLocal => (p, msg.messageId) ∈ t.sends) ?_ sent
      intro t r _ before
      unfold forward sendMessage messageOut
      dsimp only
      split_ifs
      · exact before
      · exact List.mem_append_left _ before
      · exact before
      · exact before
    · refine ih (fun p other => ?_) later ?_
      · rw [router]
        exact inside p (List.mem_cons_of_mem q other)
      · rw [router]
        exact isUp

theorem acceptLSA_fits (fits : l.Fits shape) (content : ∀ list, msg.content = .lsl list → neighbors list = shape msg.originNodeId) :
    (l.acceptLSA senderId msg).Fits shape := by
  have mid : (l.router.peerIdList.foldl (forward senderId msg) l).Fits shape :=
    Sweep.foldl_kept (P := Fits shape) (fun t peerId _ before => forward_fits before) fits
  unfold acceptLSA
  dsimp only
  split
  · rename_i list lsl
    have known : ∀ link ∈ list, link.neighborId ∈ shape msg.originNodeId := by
      intro link member
      rw [← content list lsl]
      exact List.mem_map_of_mem member
    exact ⟨mid.sorted, mid.shows.update known fun _ => content list lsl, mid.held⟩
  · exact mid

theorem receiveLSA_fits (fits : l.Fits shape) (content : ∀ list, msg.content = .lsl list → neighbors list = shape msg.originNodeId)
    (received : l.receiveLSA senderId msg = some l') : l'.Fits shape := by
  obtain ⟨mid, acked, rest⟩ := Option.bind_eq_some_iff.mp received
  have before := sendAck_fits fits (Or.inl rfl) acked
  dsimp only at rest
  split_ifs at rest
  · exact Option.some.inj rest ▸ before
  · cases Option.some.inj rest
    exact acceptLSA_fits (before.of_same before.sorted rfl rfl rfl) content
  · exact Option.some.inj rest ▸ before

theorem regenAndSend_fits {lsl : List LsLinkState} (fits : l.Fits shape) (sent : l.regenAndSend senderId origin lsl = some l') :
    l'.Fits shape := by
  have sorted := (regenAndSend_keeps fits.sorted sent).1.sorted
  unfold regenAndSend at sent
  split at sent
  · exact absurd sent nofun
  · rename_i first rest
    obtain ⟨⟨center, made⟩, taken, done⟩ := Option.bind_eq_some_iff.mp sent
    cases Option.some.inj done
    dsimp only at *
    have null : ∀ list, made.content = .lsl list → False := by
      intro list content
      unfold LsMessageCenter.newMessage at taken
      dsimp only at taken
      rw [if_pos (Or.inl rfl)] at taken
      split_ifs at taken <;>
      · cases Option.some.inj taken
        exact absurd content nofun
    let msg : LsMessage := { made with sequenceNumber := first.sequenceNumber, originNodeId := origin }
    obtain ⟨_, _, kind, _⟩ := fits.sorted.newMessage taken
    obtain ⟨sorted', _, _⟩ := advert_sorted msg fits.sorted (Or.inl rfl) taken rfl kind nofun
    have held : Held shape (center.write msg) (Function.update l.made made.messageId (first :: rest)) :=
      newMessage_held msg fits.held (Or.inl rfl) taken rfl kind (fun list content => absurd content (null list)) (fun list content => absurd content (null list))
    refine Sweep.foldl_kept (P := Fits shape) (fun t peerId _ before => ?_) ⟨sorted', fits.shows, held⟩
    split_ifs
    · exact before
    · exact before.of_same before.sorted rfl rfl rfl

theorem receiveRecord_fits {record : ℕ × List LsLinkState} (fits : l.Fits shape) (same : neighbors record.2 = shape record.1)
    (received : l.receiveRecord senderId record = some l') : l'.Fits shape := by
  unfold receiveRecord at received
  split_ifs at received
  · exact Option.some.inj received ▸ fits
  · obtain ⟨new, _, rest⟩ := Option.bind_eq_some_iff.mp received
    split_ifs at rest
    · let entered : LsLocal := { l with router := { l.router with
        linkStateDatabase := l.router.linkStateDatabase.set record.1 record.2 } }
      have enters : entered.Fits shape := ⟨fits.sorted, fits.shows.set same, fits.held⟩
      exact regenAndSend_fits enters rest
    · exact Option.some.inj rest ▸ fits

theorem receiveTopo_fits {topo : ℕ → LsTopoMap} (fits : l.Fits shape) (shown : ∀ n, Shows shape (topo n))
    (received : l.receiveTopo senderId msg topo = some l') : l'.Fits shape := by
  obtain ⟨mid, acked, rest⟩ := Option.bind_eq_some_iff.mp received
  have before := sendAck_fits fits (Or.inr rfl) acked
  dsimp only at rest
  split_ifs at rest
  · have enters : Fits shape { mid with router := { mid.router with tpmHistory := (mid.router.tpmHistory.isNewMessage msg).2 } } :=
      before.of_same before.sorted rfl rfl rfl
    split at rest
    · rename_i node _
      exact Sweep.foldlM_kept (P := Fits shape) (fun t t' record member before step =>
        receiveRecord_fits before (shown node record.1 record.2 (SortedMap.mem_entries.mp member)) step) enters rest
    · exact Option.some.inj rest ▸ enters
  · exact Option.some.inj rest ▸ before

theorem sendLinkStates_fits {buffer : Bool} (fits : l.Fits shape) (sent : l.sendLinkStates buffer = some l') : l'.Fits shape := by
  unfold sendLinkStates at sent
  by_cases alone : l.router.peerIdList = []
  · rw [if_pos alone] at sent
    exact Option.some.inj sent ▸ fits
  · rw [if_neg alone] at sent
    split at sent
    · exact Option.some.inj sent ▸ fits
    · exact Option.some.inj sent ▸ fits
    · rename_i myLSL _ found
      obtain ⟨⟨center, made⟩, taken, done⟩ := Option.bind_eq_some_iff.mp sent
      cases Option.some.inj done
      dsimp only at *
      let list := myLSL.map fun link => { link with sequenceNumber := made.sequenceNumber }
      let msg : LsMessage := { made with content := .lsl list }
      have same : neighbors list = shape l.router.myNodeId := by
        rw [← fits.shows l.router.myNodeId myLSL found]
        exact List.map_map
      obtain ⟨_, _, kind, _⟩ := fits.sorted.newMessage taken
      obtain ⟨sorted', _, number⟩ := advert_sorted msg fits.sorted (Or.inl rfl) taken rfl kind fun _ => rfl
      have origin : made.originNodeId = l.router.myNodeId := by
        unfold LsMessageCenter.newMessage at taken
        dsimp only at taken
        rw [if_pos (Or.inl rfl)] at taken
        split_ifs at taken <;>
        · cases Option.some.inj taken
          rfl
      have held : Held shape (center.write msg) (Function.update l.made made.messageId list) := by
        refine newMessage_held msg fits.held (Or.inl rfl) taken rfl kind (fun other content => ?_) (fun other content => ?_)
        · cases LsContent.lsl.inj content
          exact same.trans (congrArg shape origin.symm)
        · exact LsContent.lsl.inj content
      refine Sweep.foldl_kept (P := Fits shape) (fun t peerId _ before => ?_) ⟨sorted', fits.shows.set same, held⟩
      split_ifs
      · exact before.of_same before.sorted rfl rfl rfl
      · rw [send_out t peerId msg]
        exact out_fits before peerId msg _
      · exact before

theorem sendTopo_fits (fits : l.Fits shape) (sent : l.sendTopo peerId = some l') : l'.Fits shape := by
  obtain ⟨⟨center, made⟩, taken, done⟩ := Option.bind_eq_some_iff.mp sent
  cases Option.some.inj done
  let msg : LsMessage := { made with content := .topo l.router.myNodeId }
  obtain ⟨_, _, kind, _⟩ := fits.sorted.newMessage taken
  obtain ⟨sorted', _⟩ := advert_sorted msg fits.sorted (Or.inr rfl) taken rfl kind fun _ => rfl
  have held : Held shape (center.write msg) (Function.update l.made made.messageId (l.made made.messageId)) :=
    newMessage_held msg fits.held (Or.inr rfl) taken rfl kind (fun _ content => absurd content nofun) fun _ content => absurd content nofun
  rw [Function.update_eq_self] at held
  exact ⟨sorted', fits.shows, held⟩

theorem compareLinks_fits {news olds : List LsLinkState} (fits : l.Fits shape) (compared : l.compareLinks news olds = some l') :
    l'.Fits shape := by
  induction news generalizing l olds with
  | nil => exact Option.some.inj compared ▸ fits
  | cons new news ih =>
    cases olds with
    | nil => exact absurd compared (Option.some_ne_none l').symm
    | cons old olds =>
      unfold compareLinks at compared
      by_cases aligned : new.neighborId ≠ old.neighborId
      · rw [if_pos aligned] at compared
        exact absurd compared (Option.some_ne_none l').symm
      · rw [if_neg aligned] at compared
        dsimp only at compared
        let mid : LsLocal := if new.status = .down then
          { l with router := { l.router with ackManager := l.router.ackManager.cancelTimer new.neighborId } } else l
        have cancels : mid.Fits shape := by
          unfold mid
          split_ifs
          · exact fits.of_same fits.sorted rfl rfl rfl
          · exact fits
        by_cases same : new.status = .down ∨ old.status = .up
        · rw [if_pos same] at compared
          exact ih cancels compared
        · rw [if_neg same] at compared
          obtain ⟨next, topo, rest⟩ := Option.bind_eq_some_iff.mp compared
          exact ih (sendTopo_fits cancels topo) rest

/-- The links that are compared are those of neighbors that were known. -/
theorem compareLinks_known {news olds : List LsLinkState} (compared : l.compareLinks news olds = some l') :
    ∀ link ∈ news, link.neighborId ∈ neighbors olds := by
  induction news generalizing l olds with
  | nil => nofun
  | cons new news ih =>
    cases olds with
    | nil => exact absurd compared (Option.some_ne_none l').symm
    | cons old olds =>
      unfold compareLinks at compared
      by_cases aligned : new.neighborId ≠ old.neighborId
      · rw [if_pos aligned] at compared
        exact absurd compared (Option.some_ne_none l').symm
      · rw [if_neg aligned] at compared
        have rest : ∃ mid : LsLocal, mid.compareLinks news olds = some l' := by
          dsimp only at compared
          by_cases same : new.status = .down ∨ old.status = .up
          · rw [if_pos same] at compared
            exact ⟨_, compared⟩
          · rw [if_neg same] at compared
            obtain ⟨mid, _, rest⟩ := Option.bind_eq_some_iff.mp compared
            exact ⟨mid, rest⟩
        obtain ⟨mid, rest⟩ := rest
        refine List.forall_mem_cons.mpr ⟨?_, fun link member => List.mem_cons_of_mem _ (ih rest link member)⟩
        rw [not_not.mp aligned]
        exact List.mem_cons_self

theorem sendLinkStates_links {buffer : Bool} (sent : l.sendLinkStates buffer = some l') :
    l'.router.linkStateList = l.router.linkStateList := by
  unfold sendLinkStates at sent
  by_cases alone : l.router.peerIdList = []
  · rw [if_pos alone] at sent
    exact Option.some.inj sent ▸ rfl
  · rw [if_neg alone] at sent
    split at sent
    · exact Option.some.inj sent ▸ rfl
    · exact Option.some.inj sent ▸ rfl
    · obtain ⟨⟨center, made⟩, _, done⟩ := Option.bind_eq_some_iff.mp sent
      cases Option.some.inj done
      refine Sweep.foldl_kept (P := fun t : LsLocal => t.router.linkStateList = l.router.linkStateList) ?_ rfl
      intro t peerId _ before
      unfold sendMessage
      split_ifs <;> exact before

theorem linkStateChanged_fits (fits : l.Fits shape) (changed : l.linkStateChanged = some l') : l'.Fits shape := by
  obtain ⟨oldlsl, old, rest⟩ := Option.bind_eq_some_iff.mp changed
  dsimp only at rest
  have known : ∀ link ∈ l.router.linkStateList, link.neighborId ∈ shape l.router.myNodeId := by
    rw [← fits.shows _ _ old]
    by_cases new : (l.router.linkStateDatabase.update l.router.myNodeId l.router.myNodeId l.router.linkStateList).2
    · rw [if_pos new] at rest
      obtain ⟨next, sent, compared⟩ := Option.bind_eq_some_iff.mp rest
      let start : LsLocal := { l with router := { l.router with
        linkStateDatabase := (l.router.linkStateDatabase.update l.router.myNodeId l.router.myNodeId l.router.linkStateList).1 } }
      have links : next.router.linkStateList = l.router.linkStateList := sendLinkStates_links (l := start) sent
      exact links ▸ compareLinks_known compared
    · rw [if_neg new] at rest
      exact compareLinks_known rest
  let mid : LsLocal := { l with router := { l.router with
    linkStateDatabase := (l.router.linkStateDatabase.update l.router.myNodeId l.router.myNodeId l.router.linkStateList).1 } }
  have updates : mid.Fits shape := 
    ⟨fits.sorted, fits.shows.update known fun none => absurd (none.symm.trans old) nofun, fits.held⟩
  by_cases new : (l.router.linkStateDatabase.update l.router.myNodeId l.router.myNodeId l.router.linkStateList).2
  · rw [if_pos new] at rest
    obtain ⟨next, sent, compared⟩ := Option.bind_eq_some_iff.mp rest
    exact compareLinks_fits (sendLinkStates_fits updates sent) compared
  · rw [if_neg new] at rest
    exact compareLinks_fits updates rest

theorem sendBufferedMessages_fits (fits : l.Fits shape) (sent : l.sendBufferedMessages = some l') : l'.Fits shape := by
  obtain ⟨mid, flushed, rest⟩ := Option.bind_eq_some_iff.mp sent
  cases Option.some.inj rest
  have flushes : mid.Fits shape := by
    refine Sweep.foldlM_kept (P := Fits shape) (fun t t' entry _ before step => ?_) fits flushed
    obtain ⟨msg, _, done⟩ := Option.bind_eq_some_iff.mp step
    cases Option.some.inj done
    exact out_fits before entry.1 msg entry.2
  exact flushes.of_same flushes.sorted rfl rfl rfl

theorem resendMessages_fits (fits : l.Fits shape) (sent : l.resendMessages peerId = some l') : l'.Fits shape := by
  obtain ⟨⟨manager, msgIds⟩, taken, rest⟩ := Option.bind_eq_some_iff.mp sent
  cases Option.some.inj rest
  have start : Fits shape { l with router := { l.router with ackManager := manager } } := fits.of_same fits.sorted rfl rfl rfl
  exact Sweep.foldl_kept (P := Fits shape) (fun t msgId _ before => sendMessage_fits before peerId msgId) start

theorem receiveMessage_fits {topo : ℕ → LsTopoMap} {msgId : U32} (fits : l.Fits shape) (shown : ∀ n, Shows shape (topo n))
    (received : l.receiveMessage senderId msgId topo = some l') : l'.Fits shape := by
  unfold receiveMessage at received
  split_ifs at received
  · exact Option.some.inj received ▸ fits
  · split at received
    · exact Option.some.inj received ▸ fits
    · rename_i msg found
      split at received
      · exact receiveTopo_fits fits shown received
      · rename_i kind
        refine receiveLSA_fits fits (fun list content => ?_) received
        have place : l.center.lsa_messages.find msgId = some msg := by
          unfold LsMessageCenter.retrieveMessagePtr at found
          split_ifs at found
          · exact found
          · obtain ⟨_, _, ack⟩ := fits.sorted.other msgId msg found
            rcases ack with type | type <;> exact absurd (kind.symm.trans type) nofun
        exact (fits.held msgId msg list place content).1
      all_goals
        obtain ⟨manager, _, rest⟩ := Option.bind_eq_some_iff.mp received
        cases Option.some.inj rest
        exact fits.of_same (fits.sorted.delete _) rfl rfl rfl

end LsLocal

namespace LsSystem

variable {s t : LsSystem} {node : ℕ} {l : LsLocal} {about : Option LsMessage} {e : LsEvent}

structure Fits (shape : ℕ → List ℕ) (s : LsSystem) : Prop where
  sorted : s.center.Sorted
  shows : ∀ n, Shows shape (s.nodes n).linkStateDatabase
  held : Held shape s.center s.made

theorem Fits.enter (fits : s.Fits shape) (node : ℕ) : (s.enter node).Fits shape := ⟨fits.sorted, fits.shows node, fits.held⟩

theorem Fits.leave (fits : s.Fits shape) (after : l.Fits shape) : (s.leave node about l).Fits shape := by
  refine ⟨after.sorted, fun n => ?_, after.held⟩
  by_cases own : n = node
  · rw [own, show (s.leave node about l).nodes node = l.router from Function.update_self ..]
    exact after.shows
  · rw [show (s.leave node about l).nodes n = s.nodes n from Function.update_of_ne own ..]
    exact fits.shows n

/-- The nodes start with their own links alone. -/
theorem Started.fits (started : s.Started) : s.Fits fun n => neighbors (s.nodes n).linkStateList := by
  obtain ⟨size, center⟩ := started.center
  refine ⟨center ▸ LsMessageCenter.make_sorted size, fun n o list found => ?_, ?_⟩
  · obtain ⟨peers, links, delays, router, _⟩ := started.routers n
    rw [router] at found
    unfold LsRouter.init at found
    dsimp only at found
    rw [SortedMap.find_insert] at found
    split_ifs at found with own
    · cases Option.some.inj found
      rw [own, router]
      rfl
    · exact absurd found nofun
  · rw [center]
    nofun

theorem Fits.step (fits : s.Fits shape) (taken : s.step e = some t) : t.Fits shape := by
  have leaves : ∀ node l, l.Fits shape → ((s.renew node l).leave node none l).Fits shape := fun node l after =>
    Fits.leave (s := s.renew node l) ⟨fits.sorted, fits.shows, fits.held⟩ after
  cases e with
  | intfChanged node links =>
    obtain ⟨l, changed, rest⟩ := Option.bind_eq_some_iff.mp taken
    cases Option.some.inj rest
    let start : LsLocal := { s.enter node with router := { (s.enter node).router with linkStateList := links } }
    have first : start.Fits shape := (fits.enter node).of_same fits.sorted rfl rfl rfl
    exact leaves node l (LsLocal.linkStateChanged_fits first changed)
  | sendUpdates node =>
    obtain ⟨l, sent, rest⟩ := Option.bind_eq_some_iff.mp taken
    cases Option.some.inj rest
    exact leaves node l (LsLocal.sendLinkStates_fits (fits.enter node) sent)
  | sendBufferedMessages node =>
    obtain ⟨l, sent, rest⟩ := Option.bind_eq_some_iff.mp taken
    cases Option.some.inj rest
    exact leaves node l (LsLocal.sendBufferedMessages_fits (fits.enter node) sent)
  | deliver i =>
    obtain ⟨p, found, received⟩ := Option.bind_eq_some_iff.mp taken
    obtain ⟨l, taken, rest⟩ := Option.bind_eq_some_iff.mp received
    have after : l.Fits shape := LsLocal.receiveMessage_fits (fits.enter p.dst) fits.shows taken
    have left : ∀ about, (((renew { s with packets := s.packets.eraseIdx i } p.dst l)).leave p.dst about l).Fits shape := fun about =>
      Fits.leave (s := renew { s with packets := s.packets.eraseIdx i } p.dst l) ⟨fits.sorted, fits.shows, fits.held⟩ after
    dsimp only at rest
    split at rest
    · cases Option.some.inj rest
      exact left _
    · cases Option.some.inj rest
      obtain ⟨sorted, shows, held⟩ := left (s.center.retrieveMessagePtr p.msgId)
      exact ⟨sorted, shows, held⟩
  | lose i =>
    cases Option.some.inj taken
    exact ⟨fits.sorted, fits.shows, fits.held⟩
  | timeout node peer =>
    obtain ⟨l, sent, rest⟩ := Option.bind_eq_some_iff.mp taken
    cases Option.some.inj rest
    exact fits.leave (LsLocal.resendMessages_fits (fits.enter node) sent)

/-- The packet brings its node an LSA of another node that is new there. -/
def Accepts (s : LsSystem) (p : LsPacket) (msg : LsMessage) : Prop :=
  s.findPeerNodeId p.dst p.src ≠ LS_INVALID_NODE_ID ∧ s.center.retrieveMessagePtr p.msgId = some msg ∧ msg.type = .lsa ∧
    msg.originNodeId ≠ (s.nodes p.dst).myNodeId ∧ ((s.nodes p.dst).lsaHistory.isNewMessage msg).1 = true

instance (s : LsSystem) (p : LsPacket) (msg : LsMessage) : Decidable (s.Accepts p msg) := by
  unfold Accepts
  infer_instance

theorem isNewMessage_history {history : LsMessageHistory} {msg : LsMessage} (new : (history.isNewMessage msg).1 = true) :
    (history.isNewMessage msg).2.find msg.originNodeId = some msg.sequenceNumber := by
  unfold LsMessageHistory.isNewMessage at new ⊢
  rcases Option.eq_none_or_eq_some (history.find msg.originNodeId) with none | ⟨last, found⟩
  · rw [none]
    dsimp only
    rw [SortedMap.find_insert, if_pos rfl, none]
    rfl
  · rw [found] at new ⊢
    dsimp only at new ⊢
    split_ifs at new ⊢
    rw [SortedMap.find_set, if_pos rfl]

theorem acceptLSA_lsl {senderId : ℕ} {msg : LsMessage} {list : List LsLinkState} (lsl : msg.content = .lsl list) :
    l.acceptLSA senderId msg =
      let last := l.router.peerIdList.foldl (LsLocal.forward senderId msg) l
      { last with router := { last.router with
        linkStateDatabase := (last.router.linkStateDatabase.update last.router.myNodeId msg.originNodeId list).1 } } := by
  unfold LsLocal.acceptLSA
  rw [lsl]

theorem acceptLSA_null {senderId : ℕ} {msg : LsMessage} (null : ∀ list, msg.content ≠ .lsl list) :
    l.acceptLSA senderId msg = l.router.peerIdList.foldl (LsLocal.forward senderId msg) l := by
  unfold LsLocal.acceptLSA
  dsimp only
  split
  · rename_i list lsl
    exact absurd lsl (null list)
  · rfl

/-- What an LSA that is new leaves at its node. -/
theorem accepted_local {l' : LsLocal} {senderId : ℕ} {msg : LsMessage} (fits : l.Fits shape) (distinct : ∀ o, (shape o).Nodup)
    (content : ∀ list, msg.content = .lsl list → neighbors list = shape msg.originNodeId ∧ l.made msg.messageId = list)
    (other : msg.originNodeId ≠ l.router.myNodeId) (new : (l.router.lsaHistory.isNewMessage msg).1 = true)
    (received : l.receiveLSA senderId msg = some l') :
    l'.router.lsaHistory.find msg.originNodeId = some msg.sequenceNumber ∧
      (∀ peer ∈ l.router.peerIdList, peer ≠ msg.originNodeId → peer ≠ senderId → l.router.isUp peer = true →
        (peer, msg.messageId) ∈ l'.sends) ∧
      (l'.router.linkStateDatabase.find msg.originNodeId = some (l.made msg.messageId) ↔
        (∃ list, msg.content = .lsl list) ∨ l.router.linkStateDatabase.find msg.originNodeId = some (l.made msg.messageId)) := by
  obtain ⟨mid, acked, rest⟩ := Option.bind_eq_some_iff.mp received
  obtain ⟨_, _, router⟩ := LsLocal.sendAck_same (Or.inl rfl) acked
  dsimp only at rest
  rw [router, if_neg other, if_pos new] at rest
  cases Option.some.inj rest
  let entered : LsLocal := { mid with router := { l.router with lsaHistory := (l.router.lsaHistory.isNewMessage msg).2 } }
  let last := l.router.peerIdList.foldl (LsLocal.forward senderId msg) entered
  obtain ⟨same, _⟩ : last.router = { entered.router with ackManager := last.router.ackManager } ∧ _ :=
    LsLocal.forwards_same l.router.peerIdList
  have history : last.router.lsaHistory.find msg.originNodeId = some msg.sequenceNumber := by
    rw [same]
    exact isNewMessage_history new
  have database : last.router.linkStateDatabase = l.router.linkStateDatabase := by
    rw [same]
  have sends : ∀ peer ∈ l.router.peerIdList, peer ≠ msg.originNodeId → peer ≠ senderId → l.router.isUp peer = true →
      (peer, msg.messageId) ∈ last.sends := fun peer member notOrigin notSender isUp =>
    LsLocal.forwards_sends (l := entered) (fun _ inside => inside) member notOrigin notSender isUp
  have myself : last.router.myNodeId = l.router.myNodeId := by
    rw [same]
  by_cases full : ∃ list, msg.content = .lsl list
  · obtain ⟨list, lsl⟩ := full
    obtain ⟨fit, made⟩ := content list lsl
    rw [acceptLSA_lsl lsl]
    refine ⟨history, sends, iff_of_true ?_ (Or.inl ⟨list, lsl⟩)⟩
    change (last.router.linkStateDatabase.update last.router.myNodeId msg.originNodeId list).1.find msg.originNodeId = _
    rw [database, myself, fits.shows.update_find (distinct msg.originNodeId) other fit, made]
  · rw [acceptLSA_null fun list lsl => full ⟨list, lsl⟩]
    refine ⟨history, sends, ?_⟩
    rw [show (entered.router.peerIdList.foldl (LsLocal.forward senderId msg) entered) = last from rfl, database]
    exact ⟨Or.inr, fun either => either.resolve_left full⟩

/-- The LSA is recorded, goes on to all other peers over the links that are up, and its link states are
in the database exactly if it carries them or they were there before. -/
theorem accepted_floods {start u : LsSystem} {events : List LsEvent} {outs : List Unit} {i : ℕ} {p : LsPacket} {msg : LsMessage}
    (started : start.Started) (distinct : ∀ n, (neighbors (start.nodes n).linkStateList).Nodup)
    (run : machine.run start events = some (s, outs)) (packet : s.packets[i]? = some p) (accepts : s.Accepts p msg)
    (delivered : s.step (.deliver i) = some u) :
    (u.nodes p.dst).lsaHistory.find msg.originNodeId = some msg.sequenceNumber ∧
      (∀ peer ∈ (s.nodes p.dst).peerIdList, peer ≠ msg.originNodeId → peer ≠ p.src → (s.nodes p.dst).isUp peer = true →
        ∃ q ∈ u.packets, q.src = p.dst ∧ q.dst = peer ∧ q.msgId = msg.messageId) ∧
      ((u.nodes p.dst).linkStateDatabase.find msg.originNodeId = some (s.made msg.messageId) ↔
        (∃ list, msg.content = .lsl list) ∨
          (s.nodes p.dst).linkStateDatabase.find msg.originNodeId = some (s.made msg.messageId)) := by
  have fits : s.Fits fun n => neighbors (start.nodes n).linkStateList :=
    Machine.run_kept (P := fun _ _ => True) (I := Fits _) (fun s e next out fits _ taken => by
      obtain ⟨t, stepped, same⟩ := Option.map_eq_some_iff.mp taken
      cases same
      exact fits.step stepped) started.fits (Machine.along_trivial _ _ _) run
  obtain ⟨valid, found, kind, other, new⟩ := accepts
  obtain ⟨q, again, received⟩ := Option.bind_eq_some_iff.mp delivered
  cases Option.some.inj (packet.symm.trans again)
  obtain ⟨l, taken, rest⟩ := Option.bind_eq_some_iff.mp received
  have sender : s.findPeerNodeId p.dst p.src = p.src := by
    unfold findPeerNodeId at valid ⊢
    split_ifs at valid ⊢
    · rfl
    · exact absurd rfl valid
  have content : ∀ list, msg.content = .lsl list →
      neighbors list = neighbors (start.nodes msg.originNodeId).linkStateList ∧ s.made msg.messageId = list := by
    intro list lsl
    have place : s.center.lsa_messages.find p.msgId = some msg := by
      unfold LsMessageCenter.retrieveMessagePtr at found
      split_ifs at found
      · exact found
      · obtain ⟨_, _, ack⟩ := fits.sorted.other p.msgId msg found
        rcases ack with type | type <;> exact absurd (kind.symm.trans type) nofun
    rw [(fits.sorted.retrieve found).1]
    exact fits.held p.msgId msg list place lsl
  have lsa : (s.enter p.dst).receiveLSA p.src msg = some l := by
    have taken' : (s.enter p.dst).receiveMessage (s.findPeerNodeId p.dst p.src) p.msgId (fun node => (s.nodes node).linkStateDatabase) = some l :=
      taken
    unfold LsLocal.receiveMessage at taken'
    rw [if_neg valid, show (s.enter p.dst).center.retrieveMessagePtr p.msgId = some msg from found, sender] at taken'
    dsimp only at taken'
    rwa [kind] at taken'
  obtain ⟨history, sends, database⟩ := accepted_local (fits.enter p.dst) distinct content other new lsa
  have last : u.nodes p.dst = l.router ∧ ∀ send ∈ l.sends, ∃ q ∈ u.packets, q.src = p.dst ∧ q.dst = send.1 ∧ q.msgId = send.2 := by
    have sent : ∀ send ∈ l.sends, ∃ q ∈ s.packets.eraseIdx i ++ l.sends.map fun send =>
        (⟨p.dst, send.1, send.2, l.center.retrieveMessagePtr send.2, s.center.retrieveMessagePtr p.msgId⟩ : LsPacket),
        q.src = p.dst ∧ q.dst = send.1 ∧ q.msgId = send.2 := fun send member =>
      ⟨_, List.mem_append_right _ (List.mem_map_of_mem member), rfl, rfl, rfl⟩
    dsimp only at rest
    split at rest
    · cases Option.some.inj rest
      exact ⟨Function.update_self .., sent⟩
    · cases Option.some.inj rest
      exact ⟨Function.update_self .., sent⟩
  rw [last.1]
  refine ⟨history, fun peer member notOrigin notSender isUp => ?_, database⟩
  exact last.2 (peer, msg.messageId) (sends peer member notOrigin notSender isUp)

theorem row_distinct (first : LsStatus) (n : ℕ) : (neighbors ((row first).nodes n).linkStateList).Nodup := by
  unfold row init
  dsimp only
  split_ifs
  · exact List.nodup_singleton _
  · exact (by decide : [1, 3].Nodup)
  · exact List.nodup_singleton _
  · exact List.nodup_nil

/-- What the system is after the run. -/
def ran (events : List LsEvent) (s : LsSystem) : Option LsSystem := (machine.run s events).map Prod.fst

theorem run_of_ran {events : List LsEvent} (ran : (ran events s).isSome) : ∃ t outs, machine.run s events = some (t, outs) := by
  obtain ⟨t, last⟩ := Option.isSome_iff_exists.mp ran
  obtain ⟨⟨t, outs⟩, run, _⟩ := Option.map_eq_some_iff.mp last
  exact ⟨t, outs, run⟩

/-- The node in the middle takes the links of the first node and sends the LSA on. -/
theorem accepted_floods_row : ∃ s outs u, machine.run (row .up) [.sendUpdates 1] = some (s, outs) ∧ s.step (.deliver 0) = some u ∧
    (∃ q ∈ u.packets, q.src = 2 ∧ q.dst = 3 ∧ q.msgId = 1) ∧
    (u.nodes 2).linkStateDatabase.find 1 = some (s.made 1) := by
  obtain ⟨s, outs, run⟩ := run_of_ran (by decide +kernel : (ran [.sendUpdates 1] (row .up)).isSome)
  let p : LsPacket := ⟨1, 2, 1, some ⟨.lsa, 1, 1, 1, .lsl [⟨2, .up, 1, 1⟩]⟩, none⟩
  have facts : (machine.run (row .up) [.sendUpdates 1]).all fun last => last.1.packets[0]? = some p ∧
      last.1.Accepts p ⟨.lsa, 1, 1, 1, .lsl [⟨2, .up, 1, 1⟩]⟩ ∧ (last.1.step (.deliver 0)).isSome ∧
      3 ∈ (last.1.nodes 2).peerIdList ∧ (last.1.nodes 2).isUp 3 = true := by
    decide +kernel
  rw [run] at facts
  obtain ⟨packet, accepts, stepped, peer, isUp⟩ := of_decide_eq_true facts
  obtain ⟨u, delivered⟩ := Option.isSome_iff_exists.mp stepped
  obtain ⟨_, sends, database⟩ := accepted_floods (row_started .up) (row_distinct .up) run packet accepts delivered
  exact ⟨s, outs, u, run, delivered, sends 3 peer (by decide) (by decide) isUp, database.mpr (Or.inl ⟨_, rfl⟩)⟩

/-- The last node takes the LSA that was made without link states, and goes without the links of the first node. -/
theorem regenerated_empty : ∃ s outs p msg u, machine.run (row .down)
      [.intfChanged 1 [⟨2, .up, 1, 0⟩], .sendBufferedMessages 1, .deliver 1, .sendBufferedMessages 2] = some (s, outs) ∧
    (row .down).Started ∧ s.packets[2]? = some p ∧ s.Accepts p msg ∧ s.step (.deliver 2) = some u ∧
    (u.nodes p.dst).lsaHistory.find msg.originNodeId = some msg.sequenceNumber ∧
    (u.nodes p.dst).linkStateDatabase.find msg.originNodeId ≠ some (s.made msg.messageId) := by
  let events : List LsEvent := [.intfChanged 1 [⟨2, .up, 1, 0⟩], .sendBufferedMessages 1, .deliver 1, .sendBufferedMessages 2]
  let msg : LsMessage := ⟨.lsa, 5, 1, 1, .null⟩
  let p : LsPacket := ⟨2, 3, 5, some msg, none⟩
  obtain ⟨s, outs, run⟩ := run_of_ran (by decide +kernel : (ran events (row .down)).isSome)
  have facts : (machine.run (row .down) events).all fun last => last.1.packets[2]? = some p ∧ last.1.Accepts p msg ∧
      (last.1.step (.deliver 2)).any fun u => (u.nodes 3).lsaHistory.find 1 = some 1 ∧ (u.nodes 3).linkStateDatabase.find 1 = none := by
    decide +kernel
  rw [run] at facts
  obtain ⟨packet, accepts, after⟩ := of_decide_eq_true facts
  rcases Option.eq_none_or_eq_some (s.step (.deliver 2)) with none | ⟨u, delivered⟩
  · rw [none] at after
    exact absurd after nofun
  · rw [delivered] at after
    obtain ⟨history, nothing⟩ := of_decide_eq_true after
    refine ⟨s, outs, p, msg, u, run, row_started .down, packet, accepts, delivered, history, ?_⟩
    intro found
    exact absurd (nothing.symm.trans found) nofun

end LsSystem

end Ns2
