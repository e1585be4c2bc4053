import Exodus.Library.Pool
import Exodus.Model.Connections

/-!
# Dialling loops

`DialStep` says what a step of the transport can do to its dialling loops and to the two
registers of addresses.  From it follows, however announcements, requests to connect, dials
and ends of connections follow on each other, that an address has at most one loop of
discovery, one of a request and, for each launch, one for each time it is configured, and
that the pauses between dials stay between 2 and 30 seconds (`dials_bounded`).
-/

set_option autoImplicit false

namespace Exodus.Analysis

open Exodus.Library Exodus.Model

/-! ## What a step does to the loops -/

/-- The loops and the addresses under `active_connects` and `manual_peers` after a step. -/
inductive DialStep (t : TcpTransport) : LinkAction → List Dial → HashMap Unit → HashMap Unit → Prop
  | idle (a : LinkAction) : DialStep t a t.dials t.activeConnects t.manualPeers
  | launched :
      DialStep t .launch (t.dials ++ t.bootstrap.map (Dial.new .bootstrap)) t.activeConnects
        t.manualPeers
  | requested (a : LinkAction) (addr : String) (hnew : addr ∉ t.manualPeers) :
      DialStep t a (t.dials ++ [Dial.new .manual addr]) t.activeConnects
        (t.manualPeers.insert addr ())
  | noted (a : LinkAction) (addr : String) (hnew : addr ∉ t.activeConnects) :
      DialStep t a t.dials (t.activeConnects.insert addr ()) t.manualPeers
  | discovered (a : LinkAction) (addr : String) (hnew : addr ∉ t.activeConnects) :
      DialStep t a (t.dials ++ [Dial.new .discovered addr]) (t.activeConnects.insert addr ())
        t.manualPeers
  | moved (a : LinkAction) (i : ℕ) (d : Dial) (backoff : ℕ) (stage : DialStage)
      (hget : t.dials[i]? = some d) (hlive : d.stage ≠ .over) (hstage : stage ≠ .over)
      (hbackoff : backoff = d.backoff ∨ backoff = min (d.backoff * 2) 30 ∨ backoff = 2) :
      DialStep t a (t.dials.set i ⟨d.origin, d.address, backoff, stage⟩) t.activeConnects
        t.manualPeers
  | ended (a : LinkAction) (i : ℕ) (d : Dial) (hget : t.dials[i]? = some d)
      (hlive : d.stage ≠ .over) :
      DialStep t a (t.dials.set i ⟨d.origin, d.address, d.backoff, .over⟩)
        (if d.origin = .discovered then t.activeConnects.erase d.address else t.activeConnects)
        t.manualPeers

section Loops

variable (t : TcpTransport)

/-- The step does this to the loops. -/
def Dials (a : LinkAction) (t' : TcpTransport) : Prop :=
  DialStep t a t'.dials t'.activeConnects t'.manualPeers

/-- A start begins a loop for each bootstrap peer. -/
theorem dials_launch : Dials t .launch t.launch := by
  unfold TcpTransport.launch
  split_ifs
  · exact .idle _
  · exact .launched

/-- A connect request begins one, unless the address is registered. -/
theorem dials_connectPeer (addr : String) :
    Dials t (.connectPeer addr) (t.connectPeer addr).1 := by
  unfold TcpTransport.connectPeer
  dsimp only
  split_ifs with _ _ hmanual
  · exact .idle _
  · exact .idle _
  · exact .idle _
  · exact .requested _ addr (by simpa using hmanual)
  · exact .idle _

/-- So does an announcement. -/
theorem dials_onAnnouncement (v : Json) (src : String) :
    Dials t (.announcement v src) (t.onAnnouncement v src) := by
  unfold TcpTransport.onAnnouncement
  cases t.announcedAddress v src with
  | none => exact .idle _
  | some addr =>
    dsimp only
    split_ifs with _ hactive
    · exact .idle _
    · exact .idle _
    · exact .discovered _ addr (by simpa using hactive)
    · exact .noted _ addr (by simpa using hactive)

/-- A loop looks whether it may dial, and ends or goes on. -/
theorem dials_checkDial (i : ℕ) : Dials t (.checkDial i) (t.checkDial i) := by
  unfold TcpTransport.checkDial
  split
  · rename_i origin address backoff hget
    by_cases hstop : t.inner.stopping = true
    · rw [if_pos hstop]
      exact .ended _ i _ hget (by simp)
    · rw [if_neg hstop]
      exact .moved _ i _ _ _ hget (by simp) (by simp) (.inl rfl)
  · exact .idle _

/-- An attempt succeeds, or is put off. -/
theorem dials_dialled (i : ℕ) (ok : Bool) : Dials t (.dialled i ok) (t.dialled i ok) := by
  unfold TcpTransport.dialled
  split
  · rename_i origin address backoff hget
    split_ifs
    · exact .moved _ i _ _ _ hget (by simp) (by simp) (.inl rfl)
    · exact .moved _ i _ _ _ hget (by simp) (by simp) (.inl rfl)
  · exact .idle _

/-- A loop wakes up to the next attempt. -/
theorem dials_wakeDial (i : ℕ) : Dials t (.wakeDial i) (t.wakeDial i) := by
  unfold TcpTransport.wakeDial
  split
  · rename_i origin address backoff hget
    exact .moved _ i _ _ _ hget (by simp) (by simp) (.inr (.inl rfl))
  · rename_i origin address backoff hget
    exact .moved _ i _ _ _ hget (by simp) (by simp) (.inl rfl)
  · rename_i origin address backoff c hget
    split_ifs
    · exact .moved _ i _ _ _ hget (by simp) (by simp) (.inr (.inr rfl))
    · exact .idle _
  · exact .idle _

/-- The end of a read loop touches no dial loop. -/
theorem dials_endReading (c : ℕ) : Dials t (.endReading c) (t.endReading c) := by
  unfold TcpTransport.endReading
  cases t.connections[c]? with
  | none => exact .idle _
  | some conn => exact .idle _

/-- Nor does the end of a write loop. -/
theorem dials_endWriting (c : ℕ) (failed : Bool) :
    Dials t (.endWriting c failed) (t.endWriting c failed) := by
  unfold TcpTransport.endWriting
  cases t.connections[c]? with
  | none => exact .idle _
  | some conn =>
    dsimp only
    split_ifs <;> exact .idle _

/-- The end of a connection lets its loop try again. -/
theorem dials_finish (c : ℕ) : Dials t (.finish c) (t.finish c) := by
  unfold TcpTransport.finish
  cases t.connections[c]? with
  | none => exact .idle _
  | some conn =>
    dsimp only
    split_ifs <;> exact .idle _

/-- Every action is one of these steps. -/
theorem dials_step (a : LinkAction) : Dials t a (t.step a) := by
  cases a with
  | start =>
    unfold TcpTransport.step TcpTransport.start
    split_ifs <;> exact .idle _
  | launch => exact dials_launch t
  | halt => exact .idle _
  | close => exact .idle _
  | connectPeer addr => exact dials_connectPeer t addr
  | announcement v src => exact dials_onAnnouncement t v src
  | accept key => exact .idle _
  | checkDial i => exact dials_checkDial t i
  | dialled i ok => exact dials_dialled t i ok
  | wakeDial i => exact dials_wakeDial t i
  | endReading c => exact dials_endReading t c
  | endWriting c failed => exact dials_endWriting t c failed
  | finish c => exact dials_finish t c

/-- No action changes the bootstrap peers. -/
theorem step_bootstrap (a : LinkAction) : (t.step a).bootstrap = t.bootstrap := by
  cases a <;> simp only [TcpTransport.step, TcpTransport.start, TcpTransport.launch,
    TcpTransport.halt, TcpTransport.close, TcpTransport.connectPeer, TcpTransport.onAnnouncement,
    TcpTransport.openConnection, TcpTransport.checkDial, TcpTransport.dialled,
    TcpTransport.wakeDial, TcpTransport.endReading, TcpTransport.endWriting,
    TcpTransport.finish, TcpTransport.spawnDial] <;> repeat' (first | rfl | split)

end Loops

/-! ## Few loops for an address -/

/-- The loops of an origin that still dial an address. -/
def loopsFor (dials : List Dial) (origin : Origin) (a : String) : ℕ :=
  dials.countP fun d => d.origin = origin ∧ d.address = a ∧ d.stage ≠ .over

section Counting

variable (dials more : List Dial) (origin : Origin) (a : String)

/-- The loops of two lists. -/
theorem loopsFor_append :
    loopsFor (dials ++ more) origin a = loopsFor dials origin a + loopsFor more origin a := by
  simp [loopsFor]

/-- A new loop counts for its origin and address. -/
theorem loopsFor_new (o : Origin) (b : String) :
    loopsFor [Dial.new o b] origin a = if o = origin ∧ b = a then 1 else 0 := by
  simp [loopsFor, Dial.new]

/-- A start counts once for each time the address is listed. -/
theorem loopsFor_configured (peers : List String) :
    loopsFor (peers.map (Dial.new .bootstrap)) origin a =
      if origin = .bootstrap then peers.count a else 0 := by
  unfold loopsFor
  rw [List.countP_map]
  by_cases ho : origin = .bootstrap
  · rw [if_pos ho, List.count]
    congr 1
    funext b
    simp only [Dial.new, ho, Function.comp_apply, ne_eq, reduceCtorEq, not_false_eq_true,
      and_true, true_and]
    exact (beq_eq_decide b a).symm
  · rw [if_neg ho, List.countP_eq_zero]
    intro b _
    simp [Dial.new, Ne.symm ho]

variable {dials} {i : ℕ} {d : Dial}

/-- A loop that goes on counts as before. -/
theorem loopsFor_moved (hget : dials[i]? = some d) (hlive : d.stage ≠ .over) {stage : DialStage}
    (hstage : stage ≠ .over) (backoff : ℕ) :
    loopsFor (dials.set i ⟨d.origin, d.address, backoff, stage⟩) origin a =
      loopsFor dials origin a := by
  have hcount := countP_set_add
    (fun d : Dial => decide (d.origin = origin ∧ d.address = a ∧ d.stage ≠ .over)) hget
    ⟨d.origin, d.address, backoff, stage⟩
  simp only [hlive, hstage, ne_eq, not_false_eq_true, and_true] at hcount
  exact Nat.add_right_cancel hcount

/-- A loop that ends no longer counts. -/
theorem loopsFor_ended (hget : dials[i]? = some d) (hlive : d.stage ≠ .over) :
    loopsFor (dials.set i ⟨d.origin, d.address, d.backoff, .over⟩) origin a +
      (if d.origin = origin ∧ d.address = a then 1 else 0) = loopsFor dials origin a := by
  have hcount := countP_set_add
    (fun d : Dial => decide (d.origin = origin ∧ d.address = a ∧ d.stage ≠ .over)) hget
    ⟨d.origin, d.address, d.backoff, .over⟩
  simpa [hlive, loopsFor] using hcount

end Counting

/-- The loops after some launches of a transport with configured peers. -/
structure FewLoops (peers : List String) (launches : ℕ) (dials : List Dial)
    (active manual : HashMap Unit) : Prop where
  bootstrap : ∀ a, loopsFor dials .bootstrap a ≤ launches * peers.count a
  manual : ∀ a, loopsFor dials .manual a ≤ if a ∈ manual then 1 else 0
  discovered : ∀ a, loopsFor dials .discovered a ≤ if a ∈ active then 1 else 0
  backoff : ∀ d ∈ dials, 2 ≤ d.backoff ∧ d.backoff ≤ 30

def isLaunch : LinkAction → Bool
  | .launch => true
  | _ => false

/-- A new loop waits 2 seconds first. -/
theorem new_backoff (origin : Origin) (addr : String) :
    2 ≤ (Dial.new origin addr).backoff ∧ (Dial.new origin addr).backoff ≤ 30 := by
  simp [Dial.new]

namespace FewLoops

variable {peers : List String} {launches : ℕ} {dials : List Dial} {active manual : HashMap Unit}

/-- A new loop that is not of the configuration, for an address that has none of its kind. -/
theorem spawn (h : FewLoops peers launches dials active manual) {origin : Origin} {addr : String}
    {active' manual' : HashMap Unit} (hseed : origin ≠ .bootstrap)
    (hmanual : ∀ a, loopsFor dials .manual a + (if origin = .manual ∧ addr = a then 1 else 0) ≤
      if a ∈ manual' then 1 else 0)
    (hactive : ∀ a,
      loopsFor dials .discovered a + (if origin = .discovered ∧ addr = a then 1 else 0) ≤
        if a ∈ active' then 1 else 0) :
    FewLoops peers launches (dials ++ [Dial.new origin addr]) active' manual' where
  bootstrap a := by
    rw [loopsFor_append, loopsFor_new, if_neg fun hand => hseed hand.1]
    exact h.bootstrap a
  manual a := by
    rw [loopsFor_append, loopsFor_new]
    exact hmanual a
  discovered a := by
    rw [loopsFor_append, loopsFor_new]
    exact hactive a
  backoff d hd := by
    rcases List.mem_append.mp hd with hold | hnew
    · exact h.backoff d hold
    · rw [List.mem_singleton.mp hnew]
      exact new_backoff origin addr

/-- An address under `insert` has room for the one loop that it did not have. -/
theorem room {register : HashMap Unit} {addr : String} {n : ℕ} (hnew : addr ∉ register) (a : String)
    (h : n ≤ if a ∈ register then 1 else 0) :
    n + (if addr = a then 1 else 0) ≤ if a ∈ register.insert addr () then 1 else 0 := by
  by_cases ha : addr = a
  · subst ha
    rw [if_neg hnew] at h
    simpa using h
  · simpa [ha] using h

/-- Registering an address takes no registration away. -/
theorem le_insert {register : HashMap Unit} {n : ℕ} (addr a : String)
    (h : n ≤ if a ∈ register then 1 else 0) :
    n ≤ if a ∈ register.insert addr () then 1 else 0 := by
  refine h.trans ?_
  by_cases ha : a ∈ register
  · simp [ha]
  · simp [ha]

/-- A loop that goes on, with its back-off doubled, kept or reset. -/
theorem moved (h : FewLoops peers launches dials active manual) {i : ℕ} {d : Dial}
    (hget : dials[i]? = some d) (hlive : d.stage ≠ .over) {stage : DialStage}
    (hstage : stage ≠ .over) {backoff : ℕ}
    (hbackoff : backoff = d.backoff ∨ backoff = min (d.backoff * 2) 30 ∨ backoff = 2) :
    FewLoops peers launches (dials.set i ⟨d.origin, d.address, backoff, stage⟩) active manual where
  bootstrap a := by
    rw [loopsFor_moved _ _ hget hlive hstage]
    exact h.bootstrap a
  manual a := by
    rw [loopsFor_moved _ _ hget hlive hstage]
    exact h.manual a
  discovered a := by
    rw [loopsFor_moved _ _ hget hlive hstage]
    exact h.discovered a
  backoff e he := by
    have hd := h.backoff d (List.mem_of_getElem? hget)
    rcases List.mem_or_eq_of_mem_set he with hold | rfl
    · exact h.backoff e hold
    · show 2 ≤ backoff ∧ backoff ≤ 30
      omega

/-- The last loop of discovery for an address gives the address free. -/
theorem ended (h : FewLoops peers launches dials active manual) {i : ℕ} {d : Dial}
    (hget : dials[i]? = some d) (hlive : d.stage ≠ .over) :
    FewLoops peers launches (dials.set i ⟨d.origin, d.address, d.backoff, .over⟩)
      (if d.origin = .discovered then active.erase d.address else active) manual where
  bootstrap a := (Nat.le_of_add_right_le (loopsFor_ended _ a hget hlive).le).trans (h.bootstrap a)
  manual a := (Nat.le_of_add_right_le (loopsFor_ended _ a hget hlive).le).trans (h.manual a)
  discovered a := by
    have hcount := loopsFor_ended .discovered a hget hlive
    have hbound := h.discovered a
    by_cases ho : d.origin = .discovered
    · rw [if_pos ho]
      by_cases ha : d.address = a
      · rw [if_pos ⟨ho, ha⟩] at hcount
        have hone : loopsFor dials .discovered a ≤ 1 := hbound.trans (by split_ifs <;> omega)
        omega
      · simpa [ha] using (Nat.le_of_add_right_le hcount.le).trans hbound
    · rw [if_neg ho]
      exact (Nat.le_of_add_right_le hcount.le).trans hbound
  backoff e he := by
    rcases List.mem_or_eq_of_mem_set he with hold | rfl
    · exact h.backoff e hold
    · exact h.backoff d (List.mem_of_getElem? hget)

/-- A start adds the loops of the bootstrap peers. -/
theorem launched (h : FewLoops peers launches dials active manual) :
    FewLoops peers (launches + 1) (dials ++ peers.map (Dial.new .bootstrap)) active manual where
  bootstrap a := by
    rw [loopsFor_append, loopsFor_configured, if_pos rfl, Nat.succ_mul]
    exact Nat.add_le_add_right (h.bootstrap a) _
  manual a := by
    rw [loopsFor_append, loopsFor_configured, if_neg (by decide)]
    exact h.manual a
  discovered a := by
    rw [loopsFor_append, loopsFor_configured, if_neg (by decide)]
    exact h.discovered a
  backoff d hd := by
    rcases List.mem_append.mp hd with hold | hnew
    · exact h.backoff d hold
    · obtain ⟨b, -, rfl⟩ := List.mem_map.mp hnew
      exact new_backoff .bootstrap b

/-- More launches allow for more loops. -/
theorem mono (h : FewLoops peers launches dials active manual) (more : ℕ) :
    FewLoops peers (launches + more) dials active manual :=
  { h with bootstrap := fun a => (h.bootstrap a).trans (by gcongr; omega) }

/-- No step of the loops makes them too many. -/
theorem step {t : TcpTransport} {a : LinkAction} {dials' : List Dial}
    {active' manual' : HashMap Unit}
    (h : FewLoops t.bootstrap launches t.dials t.activeConnects t.manualPeers)
    (hstep : DialStep t a dials' active' manual') :
    FewLoops t.bootstrap (launches + if isLaunch a then 1 else 0) dials' active' manual' := by
  cases hstep with
  | idle => exact h.mono _
  | launched => exact h.launched
  | requested _ addr hnew =>
    refine (h.spawn (by decide) ?_ ?_).mono _
    · intro b
      simpa using room hnew b (h.manual b)
    · simpa using h.discovered
  | noted _ addr hnew =>
    exact { h.mono _ with discovered := fun b => le_insert addr b (h.discovered b) }
  | discovered _ addr hnew =>
    refine (h.spawn (by decide) ?_ ?_).mono _
    · simpa using h.manual
    · intro b
      simpa using room hnew b (h.discovered b)
  | moved _ i d backoff stage hget hlive hstage hbackoff =>
    exact (h.moved hget hlive hstage hbackoff).mono _
  | ended _ i d hget hlive => exact (h.ended hget hlive).mono _

/-- The loops after a run of the transport. -/
theorem of_run (nodeId host : String) (port : ℕ) (peers : List String)
    (actions : List LinkAction) :
    let t := linkMachine.run (TcpTransport.new nodeId host port peers) actions
    t.bootstrap = peers ∧
      FewLoops peers (actions.countP isLaunch) t.dials t.activeConnects t.manualPeers := by
  have hlegal : linkMachine.Legal (TcpTransport.new nodeId host port peers) actions :=
    Machine.legal_of_forall _ fun _ _ _ => trivial
  refine hlegal.history (P := fun past t => t.bootstrap = peers ∧
    FewLoops peers (past.countP isLaunch) t.dials t.activeConnects t.manualPeers) ?_ ?_
  · refine ⟨rfl, ?_, ?_, ?_, ?_⟩ <;> simp [TcpTransport.new, loopsFor]
  · intro past t a hpast _
    obtain ⟨rfl, hfew⟩ := hpast
    refine ⟨step_bootstrap t a, ?_⟩
    rw [List.countP_append, List.countP_singleton]
    exact hfew.step (dials_step t a)

end FewLoops

/-- The loops that still dial an address are those of the three origins. -/
theorem countP_live (dials : List Dial) (a : String) :
    dials.countP (fun d => d.address = a ∧ d.stage ≠ .over) =
      loopsFor dials .bootstrap a + loopsFor dials .manual a + loopsFor dials .discovered a := by
  induction dials with
  | nil => rfl
  | cons d rest ih =>
    simp only [loopsFor, List.countP_cons] at ih ⊢
    rw [ih]
    cases d.origin <;> simp <;> omega

/-- Over any actions, the loops that still try an address are at most one for each time it is
listed as a peer, for every start, one of a manual request and one of discovery; and every
back-off is between two and thirty seconds. -/
theorem dials_bounded (nodeId host : String) (port : ℕ) (peers : List String)
    (actions : List LinkAction) (a : String) :
    let t := linkMachine.run (TcpTransport.new nodeId host port peers) actions
    t.dials.countP (fun d => d.address = a ∧ d.stage ≠ .over) ≤
        actions.countP isLaunch * peers.count a + (if a ∈ t.manualPeers then 1 else 0) +
          (if a ∈ t.activeConnects then 1 else 0) ∧
      loopsFor t.dials .manual a ≤ 1 ∧ loopsFor t.dials .discovered a ≤ 1 ∧
      ∀ d ∈ t.dials, 2 ≤ d.backoff ∧ d.backoff ≤ 30 := by
  intro t
  obtain ⟨-, hfew⟩ := FewLoops.of_run nodeId host port peers actions
  refine ⟨?_, ?_, ?_, hfew.backoff⟩
  · rw [countP_live]
    exact Nat.add_le_add (Nat.add_le_add (hfew.bootstrap a) (hfew.manual a)) (hfew.discovered a)
  · apply (hfew.manual a).trans
    split_ifs <;> omega
  · apply (hfew.discovered a).trans
    split_ifs <;> omega

end Exodus.Analysis
