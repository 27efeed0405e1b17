import Cfdp.Completion

/-!
# Progress is never lost

A chunk that is right in the destination file stays right, through losses, corrupted bytes,
and sessions and processes that end between two frames; so what a session has once relied on holds from then
on, whatever becomes of the session, and a file that was complete when it returned remains so.
-/

namespace Cfdp

open Crash Prog Machine

namespace Transfer

variable {env : Env} {x : Transfer} {n n' : Node} {a : Action} {ms hist : List Moment}
  {c c' : Option Bytes} {phase : Phase}

/-- The invariant of the transfer, and a destination file that holds all that `c` holds. -/
def Improves (env : Env) (x : Transfer) (c : Option Bytes) (n : Node) : Prop :=
  NodeInv env x 0 n ∧ x.Extends c (n.disk.files (x.path env))

theorem Improves.step (h : x.Improves env c n) (hx : x.WellFormed) (ha : x.Noisy env n a)
    (hs : Node.step env n a = some (ms, n')) :
    x.Improves env c n' ∧ ∀ w, .passed w ∈ ms → x.Extends c (w.disk.files (x.path env)) := by
  refine Node.inv_step (I := x.Improves env c) (J := fun w => x.Extends c (w.disk.files (x.path env)))
    (fun w raw o cut hw ha => ?_) (fun w hw => ⟨hw.1.toStored, hw.2⟩)
    (fun disk log garbage o cut hd ha => ?_) h ha hs
  · obtain ⟨hi, hext⟩ := hw
    have hheld := inv_iff.mp hi
    refine wp_mono (wp_and (hheld.tolerates hx (.inl rfl) ha.2 ha.1) (hheld.extends hx ha.2 ha.1))
      ?_ ?_ ?_
    · rintro y ⟨hy, he⟩
      exact ⟨hext.trans he, (inv_iff.mpr hy).toStored, hext.trans he⟩
    · rintro - y ⟨hy, he⟩
      exact ⟨hext.trans he, inv_iff.mpr hy, hext.trans he⟩
    · rintro - y ⟨hf, -⟩
      exact hf.elim
  · obtain ⟨hi, hext⟩ := hd
    have hfiles (y : World) (hy : y.disk.files = disk.files) : x.Extends c (y.disk.files (x.path env)) := by
      rw [hy]
      exact hext
    refine wp_mono (wp_and (Stored.onBoot hi ha hx.tid garbage) keepsFiles_onBoot) ?_ ?_ ?_
    · rintro y ⟨hy, hf⟩
      exact ⟨hfiles y hf, hy.toStored, hfiles y hf⟩
    · rintro - y ⟨hy, hf⟩
      exact ⟨hfiles y hf, hy, hfiles y hf⟩
    · rintro - y ⟨hf, -⟩
      exact hf.elim

/-- The destination file only gets better. -/
theorem Run.extends (h : NodeInv env x 0 n) (hx : x.WellFormed)
    (hr : Node.Run env (x.Noisy env) n hist n') :
    x.Extends (n.disk.files (x.path env)) (n'.disk.files (x.path env)) ∧
      ∀ w, .passed w ∈ hist → x.Extends (n.disk.files (x.path env)) (w.disk.files (x.path env)) := by
  have hstart : x.Improves env (n.disk.files (x.path env)) n := ⟨h, extends_refl x _⟩
  generalize n.disk.files (x.path env) = c at hstart ⊢
  have hinv := hr.inv_moments (I := x.Improves env c)
    (J := fun m => ∀ w, m = .passed w → x.Extends c (w.disk.files (x.path env))) hstart ?_
  · exact ⟨hinv.1.2, fun w hw => hinv.2 _ hw w rfl⟩
  · intro n a ms n' hi ha hs
    obtain ⟨hi', hms⟩ := hi.step hx ha hs
    exact ⟨hi', fun m hm w hw => hms w (hw ▸ hm)⟩

theorem Knows.mono (h : x.Knows c phase) (he : x.Extends c c') : x.Knows c' phase := by
  cases phase with
  | query attempt => trivial
  | chunk k => exact fun j hj => he.stored j (h j hj)
  | final => exact he.same h
  | returned => exact he.same h
  | raised => trivial

end Transfer

namespace Stack

variable {env : Env} {x : Transfer} {s s' : Stack} {hist hist' : List Moment}

/-- **Progress is never lost.** On a noisy but tame line, with sessions interrupted and processes
killed at any time but inside a frame: a chunk that is right in the destination file at some point is right at every moment
after it; and what a session relies on at some point, the chunks before the one it is at, or the
whole file when it has returned, is so at every moment after it. -/
theorem run_permanent {n : Node} {up down : Nat → Nat} (hx : x.WellFormed)
    (hc : Crc.Composes env.crc32) (hcs : x.chunkSize ≤ 2 ^ 29) (hn : n.Fresh)
    (hd : x.Fits (n.disk.files (x.path env)))
    (h : Run env x (Tame env x) (first n up down) hist s) (h' : Run env x (Tame env x) s hist' s') :
    (∀ ci, x.ChunkStored (s.receiver.node.disk.files (x.path env)) ci →
      (∀ w, .passed w ∈ hist' → x.ChunkStored (w.disk.files (x.path env)) ci) ∧
        x.ChunkStored (s'.receiver.node.disk.files (x.path env)) ci) ∧
    ∀ t, s.session = some t →
      (∀ w, .passed w ∈ hist' → x.Knows (w.disk.files (x.path env)) t.phase) ∧
        x.Knows (s'.receiver.node.disk.files (x.path env)) t.phase := by
  have hi := ((inv_idle hn hd up down).run hx hc hcs h).1
  have hr := (hi.run hx hc hcs h').2
  have hnode : Node.Run env (x.Noisy env) s.receiver.node hist' s'.receiver.node :=
    hr.node fun _ _ ha => ha
  obtain ⟨hfile, hms⟩ := Transfer.Run.extends hi.receiver.held hx hnode
  refine ⟨fun ci hci => ⟨fun w hw => (hms w hw).stored ci hci, hfile.stored ci hci⟩, fun t ht => ?_⟩
  have hknows := hi.knows hx ht
  exact ⟨fun w hw => hknows.mono (hms w hw), hknows.mono hfile⟩

/-- A file that is complete remains so when the receiver is started again and another session
begins. -/
theorem run_permanent_small : ∃ hist s hist' s',
    Run sampleEnv (Transfer.small [0x61]) (Tame sampleEnv (Transfer.small [0x61]))
      (first unusedNode (fun _ => 1) (fun _ => 3)) hist s ∧
    Run sampleEnv (Transfer.small [0x61]) (Tame sampleEnv (Transfer.small [0x61])) s hist' s' ∧
    (∃ batch, s.session = some ⟨.returned, batch⟩) ∧ (∃ batch, s'.session = some ⟨.query 0, batch⟩) ∧
    s'.receiver.node.disk.files ((Transfer.small [0x61]).path sampleEnv) = some [0x61] := by
  have hx : (Transfer.small [0x61]).WellFormed := Transfer.wellFormed_small (by simp) (by simp)
  have hc := Crc.composes_zlibCrc32
  have hcs : 1 ≤ 2 ^ 29 := by decide
  have hd : (Transfer.small [0x61]).Fits none := fun g hg => by cases hg
  obtain ⟨hist, s, hok, ⟨batch, ht⟩, -⟩ := run_smallSession
  have hi := ((inv_idle unusedNode_fresh hd _ _).run hx hc hcs hok).1
  obtain ⟨hist₁, s₁, hstart, -⟩ := hi.starts
  have hintact := hstart.trans (run_send sampleEnv hx s₁)
  have hbegin : Run sampleEnv (Transfer.small [0x61]) (Tame sampleEnv (Transfer.small [0x61])) s
      (hist₁ ++ []) (s₁.reacted ((Transfer.small [0x61]).send sampleEnv.crc32)) :=
    hintact.mono fun _ _ ha => ha.tame
  obtain ⟨-, hknows⟩ := run_permanent hx hc hcs unusedNode_fresh hd hok hbegin
  exact ⟨hist, s, _, _, hok, hbegin, ⟨batch, ht⟩, ⟨[], rfl⟩, (hknows _ ht).2⟩

end Stack

end Cfdp
