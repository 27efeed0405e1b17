import Cfdp.Lib.Machine
import Cfdp.Rules

/-!
# The receiver over time

A node is a running receiver (`up`) or a machine that is off and keeps its disk
and the log of what was done (`down`). It receives PDUs, crashes, and boots. A
handler that throws ends the process; a handler can also be cut by a crash after
any of its atomic steps. The moments of a step are the worlds it passes and the
Metadata PDUs it accepts.
-/

namespace Cfdp

open Crash Prog Machine

inductive Node where
  | up (w : World)
  | down (disk : Disk) (log : List Event)

/-- `cut = some k`: a crash right after atomic step `k` of the handler. -/
inductive Action where
  | recv (raw : Bytes) (o : Oracle) (cut : Option Nat)
  | crash
  | boot (garbage : JournalState) (o : Oracle) (cut : Option Nat)

inductive Moment where
  | accepted (metadata : MetadataPdu)
  | passed (w : World)

/-- The world of a moment. -/
def Moment.world? : Moment → Option World
  | .accepted _ => none
  | .passed w => some w

@[simp] theorem Moment.world?_eq_some {m : Moment} {w : World} :
    m.world? = some w ↔ m = .passed w := by
  cases m <;> simp [Moment.world?]

/-- What a crash leaves. -/
def World.crashed (w : World) : Node := .down w.disk w.log

/-- A run of a handler to its end, or to a crash. -/
def Node.finish (r : Outcome World RuntimeError Unit) : Option Nat → Option (List World × Node)
  | none =>
    match r.result with
    | .ok _ => some (r.passed ++ [r.final], .up r.final)
    | .error _ => some (r.passed, r.final.crashed)
  | some k => r.passed[k]?.map fun x => (r.passed.take (k + 1), x.crashed)

/-- The Metadata PDU a delivery accepts. -/
def World.acceptance (w : World) (raw : Bytes) : List Moment :=
  match decodePdu raw with
  | some (.metadata metadata) => if w.rx.accepts metadata then [.accepted metadata] else []
  | _ => []

def Node.step (env : Env) : Node → Action → Option (List Moment × Node)
  | .up w, .recv raw o cut =>
    (finish (onPduReceived env o raw w) cut).map fun r => (w.acceptance raw ++ r.1.map .passed, r.2)
  | .up w, .crash => some ([], w.crashed)
  | .down disk log, .boot garbage o cut =>
    (finish (onBoot env o ⟨.construct garbage, disk, log⟩) cut).map fun r =>
      (r.1.map .passed, r.2)
  | _, _ => none

/-- Runs of the receiver. -/
abbrev Node.Run (env : Env) (ok : Node → Action → Prop) (n : Node) (hist : List Moment) (n' : Node) :
    Prop := Machine.Run (Node.step env) ok n hist n'

/-- The receiver before its first boot, with no journal. -/
def Node.Fresh : Node → Prop
  | .down disk log => disk.stateBin = none ∧ log = []
  | .up _ => False

/-- What the node keeps through a crash. -/
def Node.disk : Node → Disk
  | .up w => w.disk
  | .down disk _ => disk

def Node.log : Node → List Event
  | .up w => w.log
  | .down _ log => log

/-- The world of a running receiver. -/
def Node.world? : Node → Option World
  | .up w => some w
  | .down _ _ => none

@[simp] theorem Node.world?_eq_some {n : Node} {w : World} : n.world? = some w ↔ n = .up w := by
  cases n <;> simp [Node.world?]

@[simp] theorem Node.world?_eq_none {n : Node} : n.world? = none ↔ ∃ disk log, n = .down disk log := by
  cases n <;> simp [Node.world?]

/-- The world an action leads to. -/
def Node.next (env : Env) (n : Node) (a : Action) : Option World :=
  (Node.step env n a).bind fun r => r.2.world?

theorem Node.next_eq_some {env : Env} {n : Node} {a : Action} {w : World} :
    n.next env a = some w ↔ ∃ ms, Node.step env n a = some (ms, .up w) := by
  simp [Node.next, Option.bind_eq_some_iff]

/-- Every PDU received satisfies `P`, every oracle `O`. -/
def Action.Within (P : Bytes → Prop) (O : Oracle → Prop) : Action → Prop
  | .recv raw o _ => P raw ∧ O o
  | .crash => True
  | .boot _ o _ => O o

/-! ## A small setting -/

/-- Files are received in directory `r`. -/
def sampleEnv : Env := ⟨[0x72], Crc.zlibCrc32⟩

def noFaults : Oracle := ⟨fun _ => false, 0, [], true⟩

/-- A machine with an empty disk, off. -/
def unusedNode : Node := .down ⟨none, none, fun _ => none⟩ []

def powerOn : Action := .boot .blank noFaults none

def deliver (raw : Bytes) : Action := .recv raw noFaults none

/-- What becomes of an unused machine. -/
def sampleRun (as : List Action) : Option (List Moment × Node) :=
  exec (Node.step sampleEnv) unusedNode as

theorem unusedNode_fresh : unusedNode.Fresh := ⟨rfl, rfl⟩

theorem smooth_noFaults : noFaults.Smooth := fun _ => rfl

/-! ## Specifications of steps -/

section

variable {env : Env} {I : Node → Prop} {J : World → Prop} {w : World} {p : M Unit}

/-- A specification of a handler covers every way its run can end. -/
theorem Node.finish_spec {cut : Option Nat} {ws : List World} {n : Node}
    (h : wp p (fun x => J x ∧ I x.crashed) (fun _ x => J x ∧ I (.up x)) (fun _ x => I x.crashed) w)
    (hf : Node.finish (p w) cut = some (ws, n)) : I n ∧ ∀ x ∈ ws, J x := by
  cases cut with
  | none =>
    simp only [Node.finish] at hf
    split at hf
    · next hr =>
      cases hf
      refine ⟨(h.ok hr).2, fun x hx => ?_⟩
      rcases List.mem_append.mp hx with hx | hx
      · exact (h.passed hx).1
      · rw [List.mem_singleton.mp hx]; exact (h.ok hr).1
    · next hr =>
      cases hf
      exact ⟨h.error hr, fun x hx => (h.passed hx).1⟩
  | some k =>
    simp only [Node.finish, Option.map_eq_some_iff] at hf
    obtain ⟨x, hx, hxn⟩ := hf
    cases hxn
    exact ⟨(h.passed (List.mem_of_getElem? hx)).2, fun y hy => (h.passed (List.mem_of_mem_take hy)).1⟩

/-- A run that is not cut ends up, in a world of its postcondition. -/
theorem Node.finish_up {Q : Unit → World → Prop} {C : World → Prop} {E : RuntimeError → World → Prop}
    {cut : Option Nat} {ws : List World} {w' : World} (h : wp p C Q E w)
    (hf : Node.finish (p w) cut = some (ws, .up w')) : Q () w' := by
  cases cut with
  | none =>
    simp only [Node.finish] at hf
    split at hf
    · next hr => cases hf; exact h.ok hr
    · cases hf
  | some k =>
    simp only [Node.finish, Option.map_eq_some_iff] at hf
    obtain ⟨x, -, hxn⟩ := hf
    cases hxn

/-- Invariants of nodes and moments, from specifications of the two entry points. -/
theorem Node.inv_step {ok : Node → Action → Prop} {n n' : Node} {a : Action} {ms : List Moment}
    (hrecv : ∀ w raw o cut, I (.up w) → ok (.up w) (.recv raw o cut) →
      wp (onPduReceived env o raw) (fun x => J x ∧ I x.crashed) (fun _ x => J x ∧ I (.up x))
        (fun _ x => I x.crashed) w)
    (hcrash : ∀ w, I (.up w) → I w.crashed)
    (hboot : ∀ disk log garbage o cut, I (.down disk log) → ok (.down disk log) (.boot garbage o cut) →
      wp (onBoot env o) (fun x => J x ∧ I x.crashed) (fun _ x => J x ∧ I (.up x))
        (fun _ x => I x.crashed) ⟨.construct garbage, disk, log⟩)
    (hi : I n) (ha : ok n a) (hs : Node.step env n a = some (ms, n')) :
    I n' ∧ ∀ w, .passed w ∈ ms → J w := by
  cases n with
  | up w =>
    cases a with
    | recv raw o cut =>
      simp only [Node.step, Option.map_eq_some_iff] at hs
      obtain ⟨⟨ws, n⟩, hf, hr⟩ := hs
      cases hr
      obtain ⟨h1, h2⟩ := Node.finish_spec (hrecv w raw o cut hi ha) hf
      refine ⟨h1, fun x hx => ?_⟩
      rcases List.mem_append.mp hx with hx | hx
      · unfold World.acceptance at hx
        split at hx
        · split at hx <;> simp at hx
        · simp at hx
      · simp only [List.mem_map, Moment.passed.injEq, exists_eq_right] at hx
        exact h2 x hx
    | crash => cases hs; exact ⟨hcrash w hi, by simp⟩
    | boot => cases hs
  | down disk log =>
    cases a with
    | recv => cases hs
    | crash => cases hs
    | boot garbage o cut =>
      simp only [Node.step, Option.map_eq_some_iff] at hs
      obtain ⟨⟨ws, n⟩, hf, hr⟩ := hs
      cases hr
      obtain ⟨h1, h2⟩ := Node.finish_spec (hboot disk log garbage o cut hi ha) hf
      refine ⟨h1, fun x hx => ?_⟩
      simp only [List.mem_map, Moment.passed.injEq, exists_eq_right] at hx
      exact h2 x hx

end

end Cfdp
