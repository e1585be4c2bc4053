import Exodus.Model.Connections

/-!
# Connections and the table of peers

`LinkStep` says what a step of the transport can do to its connections and to the table of
peers.  From it follows that a broadcast goes to open connections only and to each of them
once, and that it goes, until the transport is closed, to every open connection that shares
its key with no other; such a connection ends by a write that fails
(`live_connections_reached`).  With a shared key this fails: the end of either connection
takes away the entry of the other.
-/

set_option autoImplicit false

namespace Exodus.Analysis

open Exodus.Library Exodus.Model

/-! ## What a step does to the connections -/

/-- The connections, the table of peers and `stopping` after a step. -/
inductive LinkStep (t : TcpTransport) : List Connection → HashMap ℕ → Bool → Prop
  | idle : LinkStep t t.connections t.inner.peers t.inner.stopping
  | opened (key : String) :
      LinkStep t (t.connections ++ [⟨key, true, .running, false⟩])
        (t.inner.peers.insert key t.connections.length) t.inner.stopping
  | changed (c : ℕ) (conn conn' : Connection) (hget : t.connections[c]? = some conn)
      (hkey : conn'.key = conn.key) (hfinished : conn'.finished = conn.finished)
      (hwriter : conn'.writer = conn.writer ∨ conn.writer = .running ∧
        (conn'.writer = .failed ∨
          conn'.writer = .drained ∧ t.inner.peers[conn.key]? ≠ some c)) :
      LinkStep t (t.connections.set c conn') t.inner.peers t.inner.stopping
  | finished (c : ℕ) (conn : Connection) (hget : t.connections[c]? = some conn)
      (hwriter : conn.writer ≠ .running) (hopen : conn.finished = false) :
      LinkStep t (t.connections.set c { conn with finished := true })
        (t.inner.peers.erase conn.key) t.inner.stopping
  | closed : LinkStep t t.connections ∅ true

section LinkMoves

variable (t : TcpTransport)

/-- The step does this to the connections. -/
def LinkMoves (t' : TcpTransport) : Prop := LinkStep t t'.connections t'.inner.peers t'.inner.stopping

/-- The end of a write loop is a move of the links. -/
theorem links_endWriting (c : ℕ) (failed : Bool) : LinkMoves t (t.endWriting c failed) := by
  unfold TcpTransport.endWriting
  cases hget : t.connections[c]? with
  | none => exact .idle
  | some conn =>
    dsimp only
    split_ifs with hrunning hfailed hgone
    · exact .idle
    · exact .changed c conn _ hget rfl rfl (.inr ⟨not_not.mp hrunning, .inl rfl⟩)
    · exact .changed c conn _ hget rfl rfl (.inr ⟨not_not.mp hrunning, .inr ⟨rfl, hgone⟩⟩)
    · exact .idle

/-- So is the end of a connection. -/
theorem links_finish (c : ℕ) : LinkMoves t (t.finish c) := by
  unfold TcpTransport.finish
  cases hget : t.connections[c]? with
  | none => exact .idle
  | some conn =>
    dsimp only
    split_ifs with hbusy
    · exact .idle
    · simp only [not_or] at hbusy
      exact .finished c conn hget hbusy.2.1 (by simpa using hbusy.2.2)

/-- So is an announcement. -/
theorem links_onAnnouncement (v : Json) (src : String) : LinkMoves t (t.onAnnouncement v src) := by
  unfold TcpTransport.onAnnouncement
  cases t.announcedAddress v src with
  | none => exact .idle
  | some addr =>
    dsimp only
    split_ifs <;> exact .idle

/-- So is an attempt to dial. -/
theorem links_dialled (i : ℕ) (ok : Bool) : LinkMoves t (t.dialled i ok) := by
  unfold TcpTransport.dialled
  split
  · split_ifs
    · exact .opened _
    · exact .idle
  · exact .idle

/-- So is every action. -/
theorem links_step (a : LinkAction) : LinkMoves t (t.step a) := by
  cases a with
  | start =>
    unfold TcpTransport.step TcpTransport.start
    split_ifs <;> exact .idle
  | launch =>
    unfold TcpTransport.step TcpTransport.launch
    split_ifs <;> exact .idle
  | halt => exact .idle
  | close => exact .closed
  | connectPeer addr =>
    unfold TcpTransport.step TcpTransport.connectPeer
    dsimp only
    split_ifs <;> exact .idle
  | announcement v src => exact links_onAnnouncement t v src
  | accept key => exact .opened key
  | checkDial i =>
    unfold TcpTransport.step TcpTransport.checkDial
    dsimp only
    repeat' split
    all_goals exact .idle
  | dialled i ok => exact links_dialled t i ok
  | wakeDial i =>
    unfold TcpTransport.step TcpTransport.wakeDial
    dsimp only
    repeat' split
    all_goals exact .idle
  | endReading c =>
    show LinkMoves t (t.endReading c)
    unfold TcpTransport.endReading
    cases hget : t.connections[c]? with
    | none => exact .idle
    | some conn => exact .changed c conn _ hget rfl rfl (.inl rfl)
  | endWriting c failed => exact links_endWriting t c failed
  | finish c => exact links_finish t c

end LinkMoves

/-! ## The table of peers -/

/-- Another connection has the key. -/
def Shared (connections : List Connection) (c : ℕ) (key : String) : Prop :=
  ∃ c' conn', c' ≠ c ∧ connections[c']? = some conn' ∧ conn'.key = key

/-- The table names open connections under their keys.  A connection that has its key for
itself is in the table as long as it is open, and it ends by a write that fails. -/
structure Linked (connections : List Connection) (peers : HashMap ℕ) (stopping : Bool) : Prop where
  entry : ∀ (key : String) (c : ℕ), peers[key]? = some c →
    ∃ conn, connections[c]? = some conn ∧ conn.key = key ∧ conn.finished = false
  drained : ∀ (c : ℕ) (conn : Connection), connections[c]? = some conn → conn.writer = .drained →
    peers[conn.key]? ≠ some c
  settled : stopping = false → ∀ (c : ℕ) (conn : Connection), connections[c]? = some conn →
    Shared connections c conn.key ∨
      if conn.finished then conn.writer = .failed else peers[conn.key]? = some c

namespace Linked

variable {t : TcpTransport} {connections : List Connection} {peers : HashMap ℕ} {stopping : Bool}

/-- A key that is shared stays so when a connection changes. -/
theorem shared_set {c : ℕ} {conn : Connection} (hget : connections[c]? = some conn)
    (conn' : Connection) (hkey : conn'.key = conn.key) {i : ℕ} {key : String}
    (h : Shared connections i key) :
    Shared (connections.set c conn') i key := by
  obtain ⟨j, other, hne, hj, hother⟩ := h
  by_cases hjc : j = c
  · subst hjc
    refine ⟨j, conn', hne, ?_, ?_⟩
    · exact List.getElem?_set_self (List.getElem?_eq_some_iff.mp hget).1
    · rw [hkey, ← hother, Option.some.inj (hget.symm.trans hj)]
  · exact ⟨j, other, hne, by rwa [List.getElem?_set_ne (Ne.symm hjc)], hother⟩

/-- A shared key stays shared when connections are opened. -/
theorem shared_append {i : ℕ} {key : String} (more : List Connection)
    (h : Shared connections i key) : Shared (connections ++ more) i key := by
  obtain ⟨j, other, hne, hj, hother⟩ := h
  refine ⟨j, other, hne, ?_, hother⟩
  rwa [List.getElem?_append_left (List.getElem?_eq_some_iff.mp hj).1]

/-- A place in a list with a new last element is an old one or the last. -/
theorem getElem?_concat {last conn : Connection} {i : ℕ}
    (h : (connections ++ [last])[i]? = some conn) :
    connections[i]? = some conn ∨ i = connections.length ∧ conn = last := by
  rcases lt_or_ge i connections.length with hlt | hge
  · rw [List.getElem?_append_left hlt] at h
    exact .inl h
  · rw [List.getElem?_append_right hge] at h
    have hzero : i - connections.length = 0 := by
      by_contra hne
      rw [List.getElem?_eq_none (by simp; omega)] at h
      cases h
    rw [hzero] at h
    exact .inr ⟨by omega, (Option.some.inj h).symm⟩

/-- A connection that is opened is registered under its key. -/
theorem opened (h : Linked connections peers stopping) (key : String) :
    Linked (connections ++ [⟨key, true, .running, false⟩])
      (peers.insert key connections.length) stopping where
  entry k c hc := by
    rw [Std.ExtTreeMap.getElem?_insert] at hc
    split_ifs at hc with hk
    · obtain rfl := Option.some.inj hc
      refine ⟨_, List.getElem?_concat_length, ?_, rfl⟩
      exact compare_eq_iff_eq.mp hk
    · obtain ⟨conn, hget, hkey, hopen⟩ := h.entry k c hc
      refine ⟨conn, ?_, hkey, hopen⟩
      rwa [List.getElem?_append_left (List.getElem?_eq_some_iff.mp hget).1]
  drained c conn hget hdrained := by
    rcases getElem?_concat hget with hold | ⟨-, rfl⟩
    · have hlt := (List.getElem?_eq_some_iff.mp hold).1
      rw [Std.ExtTreeMap.getElem?_insert]
      split_ifs
      · intro heq
        have := Option.some.inj heq
        omega
      · exact h.drained c conn hold hdrained
    · cases hdrained
  settled hrun c conn hget := by
    rcases getElem?_concat hget with hold | ⟨rfl, rfl⟩
    · have hlt := (List.getElem?_eq_some_iff.mp hold).1
      by_cases hkey : conn.key = key
      · exact .inl ⟨connections.length, _, by omega, List.getElem?_concat_length, hkey.symm⟩
      · have hother : compare key conn.key ≠ .eq := fun heq => hkey (compare_eq_iff_eq.mp heq).symm
        rw [Std.ExtTreeMap.getElem?_insert, if_neg hother]
        exact (h.settled hrun c conn hold).imp (shared_append _) id
    · right
      simp

/-- A connection whose loops change. -/
theorem changed (h : Linked connections peers stopping) {c : ℕ} {conn conn' : Connection}
    (hget : connections[c]? = some conn) (hkey : conn'.key = conn.key)
    (hfinished : conn'.finished = conn.finished)
    (hwriter : conn'.writer = conn.writer ∨ conn.writer = .running ∧
      (conn'.writer = .failed ∨ conn'.writer = .drained ∧ peers[conn.key]? ≠ some c)) :
    Linked (connections.set c conn') peers stopping where
  entry k i hi := by
    obtain ⟨old, hold, hk, hopen⟩ := h.entry k i hi
    by_cases hic : i = c
    · subst hic
      obtain rfl := Option.some.inj (hget.symm.trans hold)
      exact ⟨conn', List.getElem?_set_self (List.getElem?_eq_some_iff.mp hget).1, hkey.trans hk,
        hfinished.trans hopen⟩
    · exact ⟨old, by rwa [List.getElem?_set_ne (Ne.symm hic)], hk, hopen⟩
  drained i other hother hdrained := by
    by_cases hic : i = c
    · subst hic
      rw [List.getElem?_set_self (List.getElem?_eq_some_iff.mp hget).1] at hother
      obtain rfl := Option.some.inj hother
      rw [hkey]
      rcases hwriter with hsame | ⟨-, hfailed | ⟨-, hgone⟩⟩
      · exact h.drained i conn hget (hsame.symm.trans hdrained)
      · rw [hfailed] at hdrained
        cases hdrained
      · exact hgone
    · rw [List.getElem?_set_ne (Ne.symm hic)] at hother
      exact h.drained i other hother hdrained
  settled hrun i other hother := by
    by_cases hic : i = c
    · subst hic
      rw [List.getElem?_set_self (List.getElem?_eq_some_iff.mp hget).1] at hother
      obtain rfl := Option.some.inj hother
      rw [hkey, hfinished]
      refine (h.settled hrun i conn hget).imp (shared_set hget conn' hkey) fun hsettled => ?_
      split_ifs at hsettled ⊢ with hend
      · -- a writer that has failed is not running, and stays as it is
        rcases hwriter with hsame | ⟨hrunning, -⟩
        · exact hsame.trans hsettled
        · rw [hrunning] at hsettled
          cases hsettled
      · exact hsettled
    · rw [List.getElem?_set_ne (Ne.symm hic)] at hother
      exact (h.settled hrun i other hother).imp (shared_set hget conn' hkey) id

/-- A connection that ends is not registered any more. -/
theorem finished (h : Linked connections peers stopping) {c : ℕ} {conn : Connection}
    (hget : connections[c]? = some conn) (hwriter : conn.writer ≠ .running)
    (hopen : conn.finished = false) :
    Linked (connections.set c { conn with finished := true }) (peers.erase conn.key) stopping where
  entry k i hi := by
    rw [Std.ExtTreeMap.getElem?_erase] at hi
    split_ifs at hi with hk
    obtain ⟨old, hold, hkey, hopen'⟩ := h.entry k i hi
    have hic : c ≠ i := by
      rintro rfl
      obtain rfl := Option.some.inj (hget.symm.trans hold)
      exact hk (compare_eq_iff_eq.mpr hkey)
    exact ⟨old, by rwa [List.getElem?_set_ne hic], hkey, hopen'⟩
  drained i other hother hdrained := by
    rw [Std.ExtTreeMap.getElem?_erase]
    split_ifs with hk
    · simp
    · have hic : c ≠ i := by
        rintro rfl
        rw [List.getElem?_set_self (List.getElem?_eq_some_iff.mp hget).1] at hother
        obtain rfl := Option.some.inj hother
        exact hk (compare_eq_iff_eq.mpr rfl)
      rw [List.getElem?_set_ne hic] at hother
      exact h.drained i other hother hdrained
  settled hrun i other hother := by
    by_cases hic : i = c
    · subst hic
      rw [List.getElem?_set_self (List.getElem?_eq_some_iff.mp hget).1] at hother
      obtain rfl := Option.some.inj hother
      refine (h.settled hrun i conn hget).imp
        (shared_set hget { conn with finished := true } rfl) fun hsettled => ?_
      -- the entry was there until now, so the queue was not drained
      rw [hopen, if_neg (by decide)] at hsettled
      rw [if_pos rfl]
      cases hw : conn.writer with
      | running => exact absurd hw hwriter
      | failed => rfl
      | drained => exact absurd hsettled (h.drained i conn hget hw)
    · rw [List.getElem?_set_ne (Ne.symm hic)] at hother
      by_cases hkey : other.key = conn.key
      · refine .inl ⟨c, _, Ne.symm hic, List.getElem?_set_self
          (List.getElem?_eq_some_iff.mp hget).1, hkey.symm⟩
      · have hne : compare conn.key other.key ≠ .eq := fun heq => hkey (compare_eq_iff_eq.mp heq).symm
        rw [Std.ExtTreeMap.getElem?_erase, if_neg hne]
        exact (h.settled hrun i other hother).imp (shared_set hget { conn with finished := true } rfl) id

/-- A closed transport has no registered connection. -/
theorem closed (connections : List Connection) : Linked connections ∅ true where
  entry k c hc := by simp at hc
  drained c conn _ _ := by simp
  settled hrun := by cases hrun

/-- Every move keeps the links. -/
theorem step (h : Linked t.connections t.inner.peers t.inner.stopping)
    (hstep : LinkStep t connections peers stopping) : Linked connections peers stopping := by
  cases hstep with
  | idle => exact h
  | opened key => exact h.opened key
  | changed c conn conn' hget hkey hfinished hwriter => exact h.changed hget hkey hfinished hwriter
  | finished c conn hget hwriter hopen => exact h.finished hget hwriter hopen
  | closed => exact closed t.connections

/-- The links after a run from a new transport. -/
theorem of_run (nodeId host : String) (port : ℕ) (seeds : List String)
    (actions : List LinkAction) :
    let t := linkMachine.run (TcpTransport.new nodeId host port seeds) actions
    Linked t.connections t.inner.peers t.inner.stopping := by
  have hlegal : linkMachine.Legal (TcpTransport.new nodeId host port seeds) actions :=
    Machine.legal_of_forall _ fun _ _ _ => trivial
  refine hlegal.invariant (P := fun t => Linked t.connections t.inner.peers t.inner.stopping) ?_ ?_
  · refine ⟨?_, ?_, ?_⟩ <;> simp [TcpTransport.new, Inner.new]
  · intro t a h _
    exact h.step (links_step t a)

end Linked

/-- The connections that a broadcast goes to. -/
def reached (t : TcpTransport) (raw : List UInt8) : List ℕ := (t.inner.broadcast raw).map Prod.fst

/-- A broadcast reaches the registered connections. -/
theorem reached_eq (t : TcpTransport) (raw : List UInt8) :
    reached t raw = t.inner.peers.toList.map Prod.snd := by
  simp [reached, Inner.broadcast]

/-- It reaches a connection that stands under some key. -/
theorem mem_reached {t : TcpTransport} {raw : List UInt8} {c : ℕ} :
    c ∈ reached t raw ↔ ∃ key : String, t.inner.peers[key]? = some c := by
  rw [reached_eq, List.mem_map]
  constructor
  · rintro ⟨⟨key, _⟩, hmem, rfl⟩
    exact ⟨key, Std.ExtTreeMap.mem_toList_iff_getElem?_eq_some.mp hmem⟩
  · rintro ⟨key, hkey⟩
    exact ⟨(key, c), Std.ExtTreeMap.mem_toList_iff_getElem?_eq_some.mpr hkey, rfl⟩

/-- No connection stands under two keys. -/
theorem nodup_reached {t : TcpTransport} (raw : List UInt8)
    (h : Linked t.connections t.inner.peers t.inner.stopping) : (reached t raw).Nodup := by
  rw [reached_eq]
  refine List.Nodup.map_on ?_ ?_
  · rintro ⟨k, c⟩ hk ⟨k', c'⟩ hk' heq
    obtain rfl : c = c' := heq
    obtain ⟨conn, hget, hkey, -⟩ :=
      h.entry k c (Std.ExtTreeMap.mem_toList_iff_getElem?_eq_some.mp hk)
    obtain ⟨conn', hget', hkey', -⟩ :=
      h.entry k' c (Std.ExtTreeMap.mem_toList_iff_getElem?_eq_some.mp hk')
    obtain rfl := Option.some.inj (hget.symm.trans hget')
    rw [← hkey, ← hkey']
  · have hpair := Std.ExtTreeMap.distinct_keys_toList (t := t.inner.peers)
    refine hpair.imp ?_
    rintro a b hne rfl
    exact hne (compare_eq_iff_eq.mpr rfl)

/-- The end of a connection takes away the entry of another one with its key, which stays
open and is reached no more. -/
theorem finish_takes_shared {t : TcpTransport} (raw : List UInt8)
    (h : Linked t.connections t.inner.peers t.inner.stopping) {c c' : ℕ} {conn conn' : Connection}
    (hget : t.connections[c]? = some conn) (hreading : conn.reading = false)
    (hwriter : conn.writer ≠ .running) (hopen : conn.finished = false)
    (hget' : t.connections[c']? = some conn') (hne : c ≠ c') (hkey : conn'.key = conn.key) :
    (t.finish c).connections[c']? = some conn' ∧ c' ∉ reached (t.finish c) raw := by
  have hfinish : t.finish c = { t with
      inner := t.inner.unregister conn.key
      connections := t.connections.set c { conn with finished := true } } := by
    simp [TcpTransport.finish, hget, hreading, hwriter, hopen]
  rw [hfinish, mem_reached]
  refine ⟨(List.getElem?_set_ne hne).trans hget', ?_⟩
  rintro ⟨key, hentry⟩
  rw [Inner.unregister, Std.ExtTreeMap.getElem?_erase] at hentry
  split_ifs at hentry with hother
  -- an entry of `c'` can only stand under its own key
  obtain ⟨conn₁, hget₁, hkey₁, -⟩ := h.entry key c' hentry
  obtain rfl := Option.some.inj (hget'.symm.trans hget₁)
  exact hother (compare_eq_iff_eq.mpr (hkey.symm.trans hkey₁))

/-- Over any actions, a broadcast gets to no connection twice and to no finished one.  While the
transport runs it gets to each connection that never shared its key, until that is finished. -/
theorem live_connections_reached (nodeId host : String) (port : ℕ) (seeds : List String)
    (actions : List LinkAction) (raw : List UInt8) :
    let t := linkMachine.run (TcpTransport.new nodeId host port seeds) actions
    (reached t raw).Nodup ∧
      (∀ c ∈ reached t raw, ∃ conn, t.connections[c]? = some conn ∧ conn.finished = false ∧
        conn.writer ≠ .drained) ∧
      (t.inner.stopping = false → ∀ c conn, t.connections[c]? = some conn →
        ¬ Shared t.connections c conn.key →
          (conn.finished = false ↔ c ∈ reached t raw) ∧
          (conn.finished = true → conn.writer = .failed)) := by
  intro t
  have hlinked : Linked t.connections t.inner.peers t.inner.stopping :=
    Linked.of_run nodeId host port seeds actions
  have hopen : ∀ c ∈ reached t raw, ∃ conn, t.connections[c]? = some conn ∧
      conn.finished = false ∧ conn.writer ≠ .drained := by
    intro c hc
    obtain ⟨key, hkey⟩ := mem_reached.mp hc
    obtain ⟨conn, hget, rfl, hfinished⟩ := hlinked.entry key c hkey
    exact ⟨conn, hget, hfinished, fun hdrained => hlinked.drained c conn hget hdrained hkey⟩
  refine ⟨nodup_reached raw hlinked, hopen, ?_⟩
  intro hrun c conn hget halone
  have hsettled := (hlinked.settled hrun c conn hget).resolve_left halone
  refine ⟨⟨fun hfinished => ?_, fun hc => ?_⟩, fun hfinished => ?_⟩
  · rw [hfinished, if_neg (by decide)] at hsettled
    exact mem_reached.mpr ⟨conn.key, hsettled⟩
  · obtain ⟨conn', hget', hfinished, -⟩ := hopen c hc
    rwa [Option.some.inj (hget.symm.trans hget')]
  · rwa [hfinished, if_pos rfl] at hsettled

end Exodus.Analysis
