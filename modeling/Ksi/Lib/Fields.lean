/-
Texts that are made of fields, and channels that carry one text after another.

A field is read up to the character that ends it.  A reader for one message can be run
over a channel; the messages come out one by one, as they went in, exactly if the reader
takes back each of them, whatever follows it.
-/
import Mathlib.Data.List.Basic

namespace Fields

variable {α β γ : Type}

/-- The field that `stop` ends, and what follows; nothing as long as `stop` has not come. -/
def readTo [DecidableEq α] (stop : α) : List α → Option (List α × List α)
  | [] => none
  | c :: rest =>
      if c = stop then some ([], rest)
      else (readTo stop rest).map fun r => (c :: r.1, r.2)

section ReadTo

variable [DecidableEq α] {stop c : α} {field rest : List α}

theorem readTo_stop : readTo stop (stop :: rest) = some ([], rest) := if_pos rfl

theorem readTo_cons (hc : c ≠ stop) :
    readTo stop (c :: rest) = (readTo stop rest).map fun r => (c :: r.1, r.2) := if_neg hc

/-- What comes before the end of the field is part of it. -/
theorem readTo_append (hfield : stop ∉ field) :
    readTo stop (field ++ rest) = (readTo stop rest).map fun r => (field ++ r.1, r.2) := by
  induction field with
  | nil => simp
  | cons c field ih =>
      obtain ⟨hc, hfield⟩ := not_or.mp (List.mem_cons.not.mp hfield)
      rw [List.cons_append, readTo_cons (Ne.symm hc), ih hfield, Option.map_map]
      rfl

theorem readTo_field (hfield : stop ∉ field) :
    readTo stop (field ++ stop :: rest) = some (field, rest) := by
  rw [readTo_append hfield, readTo_stop, Option.map_some, List.append_nil]

/-- Where another character ends the field, it is never what is read. -/
theorem readTo_past (hfield : stop ∉ field) (hc : c ≠ stop) {rest' : List α} :
    readTo stop (field ++ c :: rest) ≠ some (field, rest') := by
  rw [readTo_append hfield, readTo_cons hc, Option.map_map]
  intro h
  obtain ⟨r, -, heq⟩ := Option.map_eq_some_iff.mp h
  have hlong : field ++ c :: r.1 = field := (Prod.mk.inj heq).1
  exact absurd (List.append_right_eq_self.mp hlong) nofun

end ReadTo

/-- A reader for one message, run `n` times. -/
def readMany (read : List α → Option (β × List α)) : Nat → List α → Option (List β × List α)
  | 0, l => some ([], l)
  | n + 1, l => do
      let (b, l) ← read l
      let (bs, l) ← readMany read n l
      some (b :: bs, l)

/-- **The messages of a channel are read back, and nothing else is read, exactly if each of
them is good**, where a good message is read back whatever follows it, and another one
never is. -/
theorem readMany_iff {read : List α → Option (β × List α)} {text : γ → List α} {want : γ → β}
    {Good : γ → Prop} (tail : List α) : ∀ {messages : List γ},
      (∀ m ∈ messages, ∀ rest, Good m → read (text m ++ rest) = some (want m, rest)) →
      (∀ m ∈ messages, ∀ rest rest', ¬ Good m → read (text m ++ rest) ≠ some (want m, rest')) →
      (readMany read messages.length (messages.flatMap text ++ tail) =
        some (messages.map want, tail) ↔ ∀ m ∈ messages, Good m) := by
  intro messages
  induction messages with
  | nil => exact fun _ _ => iff_of_true rfl nofun
  | cons m messages ih =>
      intro hgood hbad
      obtain ⟨hgood, hgoods⟩ := List.forall_mem_cons.mp hgood
      obtain ⟨hbad, hbads⟩ := List.forall_mem_cons.mp hbad
      have hread : readMany read (m :: messages).length ((m :: messages).flatMap text ++ tail) =
          (read (text m ++ (messages.flatMap text ++ tail))).bind fun r =>
            (readMany read messages.length r.2).bind fun rs => some (r.1 :: rs.1, rs.2) := by
        rw [List.flatMap_cons, List.append_assoc]
        rfl
      rw [hread, List.forall_mem_cons, ← ih hgoods hbads]
      by_cases hm : Good m
      · rw [hgood _ hm, Option.bind_some, and_iff_right hm]
        cases hrest : readMany read messages.length (messages.flatMap text ++ tail) with
        | none => simp
        | some rs => simp [Prod.ext_iff]
      · refine iff_of_false (fun h => ?_) fun h => hm h.1
        obtain ⟨⟨b, rest'⟩, hb, h⟩ := Option.bind_eq_some_iff.mp h
        obtain ⟨rs, -, heq⟩ := Option.bind_eq_some_iff.mp h
        obtain rfl : b = want m := (List.cons.inj (Prod.mk.inj (Option.some.inj heq)).1).1
        exact hbad _ _ hm hb

end Fields
