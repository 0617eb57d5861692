/-
The end of an engine.

`ksiEngineDestroyChild` destroys the nodes of `nodes[0]` with flag 0 and those of
`nodes[1]` with flag 1, whichever of the two is the edited version: the first loop queues
the buffers that it comes across, and the second one frees them in that order.  This
works when nothing is left in the queues, since the versions agree by then: a node of the
first version and the one that goes with it in the second have the same buffers.
-/
import Ksi.Proofs.Dag.Lifetimes
import Ksi.Proofs.Dag.PortBuffers
import Ksi.Proofs.Vec

namespace Ksi.Dag

open Prog Relator Runs

variable {π : NodePtr → NodePtr → Prop} {good : NodePtr → Prop} {e c s s' : Engine} {v : Versions}
  {taken : List BufPtr} {n : Nat × NodePtr} {rest : List (Nat × NodePtr)} {g : Graph} {i : Nat}
    {p : NodePtr}

/-- `rest` is left to be destroyed of the nodes of `s`. -/
structure Clearing (taken : List BufPtr) (s : Engine) (rest : List (Nat × NodePtr))
    (s' : Engine) : Prop where
  frees : ∃ freeBufs heap,
    s' = { s with freeBufs := freeBufs, graph := { s.graph with heap := heap } }
  nodup : (rest.map Prod.snd).Nodup
  live : ∀ p, s'.graph.heap p ≠ none ↔ p ∈ rest.map Prod.snd
  balanced : Balanced (s'.whole taken)

theorem Clearing.step (h : Clearing taken s (n :: rest) s') :
    wp False (ksiEngineDestroyNode n.2 .editing) s' (fun _ => Clearing taken s rest)
      fun _ _ => False := by
  have hlive : s'.graph.heap n.2 ≠ none := (h.live n.2).mpr List.mem_cons_self
  have hframe : wp True (ksiEngineDestroyNode n.2 .editing) s'
    (fun _ s'' => ∃ freeBufs, s'' = { s' with
      freeBufs := freeBufs, graph :=
        { s'.graph with heap := Function.update s'.graph.heap n.2 none } })
      fun _ _ => True := by
    refine ksiEngineDestroyNode_frees fun s'' hs'' => ?_
    obtain ⟨l, rfl⟩ := hs''
    exact ⟨l, rfl⟩
  have hbalanced := ((whole_appends taken).commutes.ksiEngineDestroyNode (n := n.2)).keeps
    ksiEngineDestroyNode_balanced s'
    h.balanced
  refine wp_mono (wp_and_of_true
    (ksiEngineDestroyNode_wp (E := fun _ _ => False) (Q := fun _ _ => True) (fun _ => rfl)
    (fun _ => hlive) fun _ _ => trivial) (wp_and hframe hbalanced)) ?_ fun _ _ h' => h'.1
  rintro _ s'' ⟨-, ⟨l', rfl⟩, hbalanced'⟩
  obtain ⟨l, heap, hs'⟩ := h.frees
  have hnodup := h.nodup
  rw [List.map_cons, List.nodup_cons] at hnodup
  refine ⟨⟨l', _, by rw [hs']⟩, hnodup.2, fun p => ?_, hbalanced'⟩
  have hp := h.live p
  rw [List.map_cons, List.mem_cons] at hp
  show Function.update s'.graph.heap n.2 none p ≠ none ↔ _
  by_cases heq : p = n.2
  · subst heq
    rw [Function.update_self]
    exact iff_of_false (fun hne => hne rfl) hnodup.1
  · rw [Function.update_of_ne heq, hp]
    exact ⟨fun hp' => hp'.resolve_left heq, .inr⟩

end Ksi.Dag
