/-
The note player over consecutive buffers.

What the tree enumerates from a time on is cut at the frames: `between x y` are the notes
with keys from `x` up to `y`.  The `while` loop plays those of one frame
(`play_spec`), the loop over the frames those of the buffer, and `Tuned` is what one buffer
leaves for the next: the cursor at the first note to come, the frequency of the last one
that has been, a queue in order, and a clean port 0, since the function sets the dirty bit
of port 1 and not of port 0.  So a consumer of port 0 gets the last sample for the whole
buffer; and a buffer that is bypassed keeps the events of an earlier one.
-/
import Ksi.Audio.Scarlet
import Ksi.Lib.Runs
import Ksi.Proofs.Audio.Events
import Ksi.Proofs.Audio.Protocol

namespace Ksi.Audio.Scarlet

open Ksi.Dag Runs

/-! ### The notes -/

/-- From any time on, `ksiRBTreeNextForKey` and `ksiRBTreeNext` go through the notes with
keys from that time on, each once and in the order of the keys, and come to NULL. -/
structure Enumerates (tree : Notes) (notes : List NotePtr) : Prop where
  sorted : notes.Pairwise fun p q => tree.key p ≤ tree.key q
  range : ∀ p ∈ notes, -2 ^ 31 ≤ tree.key p ∧ tree.key p < 2 ^ 31
  first : ∀ k : Int, 0 ≤ k → k < 2 ^ 31 →
    tree.ksiRBTreeNextForKey k = (notes.filter fun p => k ≤ tree.key p).head?
  linked : ∀ k : Int, 0 ≤ k → k < 2 ^ 31 →
    Linked tree.ksiRBTreeNext (notes.filter fun p => k ≤ tree.key p)

/-- The notes with keys below `x`. -/
def below (tree : Notes) (notes : List NotePtr) (x : Int) : List NotePtr :=
  notes.filter fun p => tree.key p < x

/-- The notes with keys from `x` on. -/
def onward (tree : Notes) (notes : List NotePtr) (x : Int) : List NotePtr :=
  notes.filter fun p => x ≤ tree.key p

/-- The notes with keys from `x` on and below `y`. -/
def between (tree : Notes) (notes : List NotePtr) (x y : Int) : List NotePtr :=
  notes.filter fun p => x ≤ tree.key p ∧ tree.key p < y

variable {tree : Notes} {notes : List NotePtr} {x y z : Int}

/-- A list in which what meets `P` comes before what meets `Q`. -/
theorem filter_or_append {α : Type} {P Q : α → Bool} {l : List α}
    (hdisjoint : ∀ a, P a = true → Q a = false)
    (h : l.Pairwise fun a b => Q a = true → P b = false) :
    l.filter (fun a => P a || Q a) = l.filter P ++ l.filter Q := by
  induction l with
  | nil => rfl
  | cons a rest ih =>
      obtain ⟨ha, hrest⟩ := List.pairwise_cons.mp h
      have ih := ih hrest
      by_cases hP : P a = true
      · have hQ := hdisjoint a hP
        simp only [List.filter_cons, hP, hQ, Bool.true_or, if_true, Bool.false_eq_true,
          if_false, ih, List.cons_append]
      · rw [Bool.not_eq_true] at hP
        by_cases hQ : Q a = true
        · -- from here on nothing meets `P`
          have hnil : rest.filter P = [] := by
            rw [List.filter_eq_nil_iff]
            intro b hb
            simp [ha b hb hQ]
          rw [hnil, List.nil_append] at ih
          simp only [List.filter_cons, hP, hQ, Bool.false_or, if_true, Bool.false_eq_true, if_false,
            ih, hnil, List.nil_append]
        · rw [Bool.not_eq_true] at hQ
          simp only [List.filter_cons, hP, hQ, Bool.or_self, Bool.false_eq_true, if_false, ih]

theorem below_append (hs : notes.Pairwise fun p q => tree.key p ≤ tree.key q) (hxy : x ≤ y) :
    below tree notes y = below tree notes x ++ between tree notes x y := by
  unfold below between
  rw [← filter_or_append (by simp; omega) (hs.imp (by simp; omega))]
  refine List.filter_congr fun p _ => ?_
  simp only [← Bool.decide_or, decide_eq_decide]
  omega

theorem onward_append (hs : notes.Pairwise fun p q => tree.key p ≤ tree.key q) (hxy : x ≤ y) :
    onward tree notes x = between tree notes x y ++ onward tree notes y := by
  unfold onward between
  rw [← filter_or_append (by simp) (hs.imp (by simp; omega))]
  refine List.filter_congr fun p _ => ?_
  simp only [← Bool.decide_or, decide_eq_decide]
  omega

theorem mem_between {p : NotePtr} :
    p ∈ between tree notes x y ↔ p ∈ notes ∧ x ≤ tree.key p ∧ tree.key p < y := by
  unfold between
  simp

theorem mem_onward {p : NotePtr} : p ∈ onward tree notes x ↔ p ∈ notes ∧ x ≤ tree.key p := by
  unfold onward
  simp

/-- The notes of two adjacent spans. -/
theorem between_append (hs : notes.Pairwise fun p q => tree.key p ≤ tree.key q) (hxy : x ≤ y)
    (hyz : y ≤ z) :
    between tree notes x z = between tree notes x y ++ between tree notes y z := by
  have hz := below_append hs (hxy.trans hyz)
  rw [below_append hs hyz, below_append hs hxy, List.append_assoc] at hz
  exact (List.append_cancel_left hz).symm

/-! ### What is asked of the player -/

/-- The event for a note. -/
def Notes.event (tree : Notes) (p : NotePtr) : KsiEvent :=
  { timeStamp := (tree.key p).toNat, data := tree.gate p }

/-- The frequency of the last note with a key of at most `x`. -/
def freqAt (tree : Notes) (notes : List NotePtr) (x : Int) : Option KsiData :=
  ((below tree notes (x + 1)).getLast?).map tree.freq

/-- A note from `start` on has been reached at `x`. -/
def Reached (tree : Notes) (notes : List NotePtr) (start x : Int) : Prop :=
  ∃ p ∈ notes, start ≤ tree.key p ∧ tree.key p ≤ x

/-- What a call for the buffer that begins at `t` leaves: the events of this buffer's
notes, no other ones, and at each frame, once a note has been reached, the frequency of the
last one. -/
structure Plays (tree : Notes) (notes : List NotePtr) (n : NodePtr) (start t bufsize : Nat)
    (s : MidiSeg) : Prop where
  events : ∃ l, s.memory.Holds n 1 l
    ((between tree notes t (t + bufsize)).map tree.event)
  freq : ∀ i : Nat, i < bufsize → Reached tree notes start (t + i) →
    s.ports.visible bufsize 0 i = freqAt tree notes (t + i)

/-- What that takes of the state before the call: a buffer without a note up to its end
finds the queue empty, and the note in force has the same frequency at all frames. -/
structure Steady (tree : Notes) (notes : List NotePtr) (n : NodePtr) (start t bufsize : Nat)
    (s : MidiSeg) : Prop where
  queue : (∃ p ∈ notes, (t : Int) ≤ tree.key p ∧ tree.key p ≤ t + bufsize) ∨
    (s.memory.queue n 1).tail = none
  freq : ∀ i : Nat, i < bufsize → Reached tree notes start (t + i) →
    freqAt tree notes (t + i) = freqAt tree notes (t + bufsize - 1)

/-! ### Runs -/

/-- The player, and the engine's `timeStamp`. -/
structure Stream where
  player : MidiSeg
  timeStamp : Nat

/-- One buffer of `bufsize` frames. -/
def Stream.step (tree : Notes) (fuel : Nat) (n : NodePtr) (s : Stream) (bufsize : Nat) :
    Option Stream :=
  (kscarletMidiSeg (some tree) fuel bufsize s.timeStamp n s.player).map fun player =>
    { player := player, timeStamp := s.timeStamp + bufsize }

/-- A buffer has frames, and it starts at a time that is an `int32_t`. -/
def InTime (s : Stream) (bufsize : Nat) : Prop :=
  1 ≤ bufsize ∧ bufsize < 2 ^ 31 ∧ s.timeStamp < 2 ^ 31

/-- The player after `kscarletMidiSegReset`, with port 0 as the plugin defines it. -/
structure Fresh (n : NodePtr) (s : MidiSeg) : Prop where
  current : s.current = none
  queue : ∃ l events, s.memory.Holds n 1 l events
  port : ∃ o, s.ports.outputs[0]? = some o ∧ o.type = ksiNodePortTypeFloat

/-- What one buffer leaves for the next. -/
structure Tuned (tree : Notes) (notes : List NotePtr) (n : NodePtr) (start t : Nat)
    (s : MidiSeg) : Prop where
  later : start ≤ t
  current : s.current = none ∨ s.current = (onward tree notes t).head?
  freq : Reached tree notes start (t - 1) → freqAt tree notes (t - 1) = some s.freq
  queue : ∃ l events, s.memory.Holds n 1 l events
  port : ∃ o, s.ports.outputs[0]? = some o ∧ o.type = ksiNodePortTypeFloat

variable {n : NodePtr} {start t i bufsize fuel : Nat} {s : MidiSeg}

theorem Fresh.tuned (h : Fresh n s) : Tuned tree notes n start start s where
  later := Nat.le_refl start
  current := .inl h.current
  freq := by
    intro hreached
    obtain ⟨p, -, hle, hlt⟩ := hreached
    omega
  queue := h.queue
  port := h.port

/-! ### The notes of one frame -/

theorem currentDt_eq {p : NotePtr} (ht : t < 2 ^ 31) (hle : (t : Int) ≤ tree.key p)
    (hlt : tree.key p < 2 ^ 31) : currentDt (tree.key p) t = tree.key p - t := by
  unfold currentDt
  exact Int.bmod_eq_of_le (by omega) (by omega)

theorem stampAt_eq (ht : t < 2 ^ 31) (hi : i < 2 ^ 31) : stampAt t i = t + i := by
  unfold stampAt
  omega

/-- **The `while` loop plays the notes of its frame**, and stops at the first one after. -/
theorem play_spec (ht : t < 2 ^ 31) (hi : i < 2 ^ 31) {later : List NotePtr}
    (hlater : ∀ p ∈ later, (t + i : Int) < tree.key p ∧ tree.key p < 2 ^ 31) :
    ∀ (now : List NotePtr) (fuel : Nat) (s : MidiSeg) (l : List EventPtr) (events : List KsiEvent),
      now.length ≤ fuel → (∀ p ∈ now, tree.key p = t + i ∧ tree.key p < 2 ^ 31) →
      Linked tree.ksiRBTreeNext (now ++ later) → s.current = (now ++ later).head? →
      s.memory.Holds n 1 l events →
      ∃ s' l', MidiSeg.play tree t n i fuel s (tree.localNextEvent t (now ++ later).head?) =
          some (s', tree.localNextEvent t later.head?) ∧
        s'.current = later.head? ∧ s'.memory.Holds n 1 l' (events ++ now.map tree.event) ∧
        s'.freq = ((now.getLast?).map tree.freq).getD s.freq ∧ s'.ports = s.ports := by
  intro now
  induction now with
  | nil =>
      intro fuel s l events _ _ _ hcur hqueue
      have hne : tree.localNextEvent t later.head? ≠ i := by
        cases later with
        | nil => exact fun h => by cases h
        | cons p rest =>
            obtain ⟨hgt, hlt⟩ := hlater p List.mem_cons_self
            show currentDt (tree.key p) t ≠ i
            rw [currentDt_eq ht (by omega) hlt]
            omega
      refine ⟨s, l, ?_, hcur, by simpa using hqueue, rfl, rfl⟩
      unfold MidiSeg.play
      exact if_pos hne
  | cons p rest ih =>
      intro fuel s l events hfuel hnow hlinked hcur hqueue
      obtain ⟨hkey, hlt⟩ := hnow p List.mem_cons_self
      have hdt : tree.localNextEvent t (p :: rest ++ later).head? = i := by
        show currentDt (tree.key p) t = i
        rw [currentDt_eq ht (by omega) hlt]
        omega
      obtain ⟨fuel, rfl⟩ : ∃ k, fuel = k + 1 := ⟨fuel - 1, by simp at hfuel; omega⟩
      have hnext : tree.ksiRBTreeNext p = (rest ++ later).head? := hlinked.1
      have hevent : tree.event p = { timeStamp := stampAt t i, data := tree.gate p } := by
        unfold Notes.event
        rw [stampAt_eq ht hi, hkey]
        rfl
      obtain ⟨s', l', hplay, hcur', hqueue', hfreq, hports⟩ := ih fuel
        { s with
          freq := tree.freq p
          memory := s.memory.ksiEventEnqueue n 1 (tree.gate p) (stampAt t i)
          current := tree.ksiRBTreeNext p } _ _ (by simpa using hfuel)
        (fun q hq => hnow q (List.mem_cons_of_mem p hq)) hlinked.2 hnext
        (hqueue.enqueue (tree.gate p) (stampAt t i))
      refine ⟨s', l', ?_, hcur', ?_, ?_, hports⟩
      · unfold MidiSeg.play
        rw [hdt, if_neg (by simp), hcur]
        rw [← hnext] at hplay
        exact hplay
      · rw [List.map_cons, hevent]
        simpa using hqueue'
      · rw [hfreq]
        cases rest with
        | nil => rfl
        | cons q rest => rfl

/-! ### The frames of a buffer -/

/-- The loop over the frames has come to frame `i`. -/
structure AtFrame (tree : Notes) (notes : List NotePtr) (n : NodePtr) (start t i : Nat)
    (s : MidiSeg) : Prop where
  current : s.current = (onward tree notes (t + i)).head?
  freq : Reached tree notes start (t + i - 1) → freqAt tree notes (t + i - 1) = some s.freq
  events : ∃ l, s.memory.Holds n 1 l ((between tree notes t (t + i)).map tree.event)
  port : ∃ o, s.ports.outputs[0]? = some o ∧ o.type = ksiNodePortTypeFloat ∧
    (0 < i → o.buffer (i - 1) = s.freq)

/-- The last note before a frame is one of the frame before it, or the last one before
that. -/
theorem freqAt_next (hs : notes.Pairwise fun p q => tree.key p ≤ tree.key q) {freq : KsiData}
    (h : Reached tree notes start (x - 1) → freqAt tree notes (x - 1) = some freq)
    (hreached : Reached tree notes start x) :
    freqAt tree notes x =
      some ((((between tree notes x (x + 1)).getLast?).map tree.freq).getD freq) := by
  unfold freqAt at h ⊢
  rw [below_append hs (Int.le_add_one (Int.le_refl x)), List.getLast?_append]
  rw [Int.sub_add_cancel] at h
  cases hnow : (between tree notes x (x + 1)).getLast? with
  | some p => rfl
  | none =>
      refine h ?_
      obtain ⟨p, hp, hle, hlt⟩ := hreached
      have hnot : p ∉ between tree notes x (x + 1) := by
        rw [List.getLast?_eq_none_iff.mp hnow]
        exact List.not_mem_nil
      rw [mem_between] at hnot
      refine ⟨p, hp, hle, ?_⟩
      by_contra hge
      exact hnot ⟨hp, by omega, by omega⟩

/-- A port that is clean has one value for the whole buffer. -/
theorem visible_float {p : Ports} {o : OutputBuffer} (ho : p.outputs[0]? = some o)
    (htype : o.type = ksiNodePortTypeFloat) (i : Nat) :
    p.visible bufsize 0 i = some (o.buffer (bufsize - 1)) := by
  unfold Ports.visible OutputBuffer.visible
  rw [ho, Option.map_some, htype]
  rfl

theorem updateOutput_other (p : Ports) (f : OutputBuffer → OutputBuffer) :
    (p.updateOutput 1 f).outputs[0]? = p.outputs[0]? := by
  rw [Ports.updateOutput_outputs, if_neg (by decide)]

section Buffer

variable (henum : Enumerates tree notes) (hfuel : notes.length ≤ fuel) (ht : t < 2 ^ 31)
include henum hfuel ht

/-- One frame. -/
theorem AtFrame.next (hi : i < 2 ^ 31) (h : AtFrame tree notes n start t i s) :
    ∃ s', MidiSeg.play tree t n i fuel s
        (tree.localNextEvent t (onward tree notes (t + i)).head?) =
        some (s', tree.localNextEvent t (onward tree notes (t + i + 1)).head?) ∧
      AtFrame tree notes n start t (i + 1) { s' with ports := storeAt s'.ports 0 i s'.freq } := by
  have hs := henum.sorted
  have hsplit : onward tree notes (t + i) =
      between tree notes (t + i) (t + i + 1) ++ onward tree notes (t + i + 1) :=
    onward_append hs (by omega)
  have hlinked : Linked tree.ksiRBTreeNext (onward tree notes (t + i)) := by
    by_cases hlt : (t + i : Int) < 2 ^ 31
    · exact henum.linked _ (by omega) hlt
    · -- no key is as large as that
      have hnil : onward tree notes (t + i) = [] := by
        unfold onward
        rw [List.filter_eq_nil_iff]
        intro p hp
        have := henum.range p hp
        simp
        omega
      rw [hnil]
      trivial
  rw [hsplit] at hlinked
  have hcur := h.current
  rw [hsplit] at hcur
  obtain ⟨l, hevents⟩ := h.events
  obtain ⟨s', l', hplay, hcur', hqueue, hfreq, hports⟩ := play_spec (n := n) ht hi
    (fun p hp => ⟨by have := (mem_onward.mp hp).2; omega,
      (henum.range p (mem_onward.mp hp).1).2⟩)
    (between tree notes (t + i) (t + i + 1)) fuel s l _
    ((List.length_filter_le _ _).trans hfuel)
    (fun p hp => ⟨by have := (mem_between.mp hp).2; omega,
      (henum.range p (mem_between.mp hp).1).2⟩) hlinked hcur hevents
  rw [← hsplit] at hplay
  refine ⟨s', hplay, ?_⟩
  have hcast : (t + (i + 1 : Nat) : Int) = t + i + 1 := by push_cast; omega
  refine ⟨?_, ?_, ?_, ?_⟩
  · rw [hcast]
    exact hcur'
  · rw [hcast, Int.add_sub_cancel]
    intro hreached
    have := freqAt_next hs h.freq hreached
    rw [← hfreq] at this
    exact this
  · refine ⟨l', ?_⟩
    rw [hcast, between_append hs (by omega) (y := (t + i : Int)) (by omega), List.map_append]
    exact hqueue
  · obtain ⟨o, ho, htype, -⟩ := h.port
    refine ⟨{ o with buffer := Function.update o.buffer i s'.freq }, ?_, htype, fun _ => ?_⟩
    · unfold storeAt
      rw [Ports.updateOutput_outputs, if_pos rfl, hports, ho]
      rfl
    · simp

/-- The rest of the frames. -/
theorem AtFrame.frames : ∀ (k i : Nat) (s : MidiSeg), i + k < 2 ^ 31 →
    AtFrame tree notes n start t i s →
    ∃ s', MidiSeg.frames tree t n fuel (List.range' i k) s
        (tree.localNextEvent t (onward tree notes (t + i)).head?) = some s' ∧
      AtFrame tree notes n start t (i + k) s' := by
  intro k
  induction k with
  | zero =>
      intro i s _ h
      exact ⟨s, rfl, h⟩
  | succ k ih =>
      intro i s hlt h
      obtain ⟨s₁, hplay, h₁⟩ := h.next henum hfuel ht (by omega)
      obtain ⟨s', hframes, h'⟩ := ih (i + 1) _ (by omega) h₁
      refine ⟨s', ?_, by rw [show i + (k + 1) = i + 1 + k by omega]; exact h'⟩
      rw [List.range'_succ]
      unfold MidiSeg.frames
      rw [hplay, Option.bind_some]
      rw [show (t + (i + 1 : Nat) : Int) = t + i + 1 by push_cast; omega] at hframes
      exact hframes

end Buffer

/-! ### A call -/

/-- The cursor is looked up where there is none. -/
def MidiSeg.lookup (tree : Notes) (t : Nat) (s : MidiSeg) : MidiSeg :=
  match s.current with
  | some _ => s
  | none => { s with current := tree.ksiRBTreeNextForKey ((t : Int).bmod (2 ^ 32)) }

theorem kscarletMidiSeg_eq : kscarletMidiSeg (some tree) fuel bufsize t n s =
    match (s.lookup tree t).current with
    | none => some ((s.lookup tree t).bypass bufsize)
    | some p =>
        if currentDt (tree.key p) t > bufsize then some ((s.lookup tree t).bypass bufsize)
        else (MidiSeg.frames tree t n fuel (List.range bufsize)
            { s.lookup tree t with memory := (s.lookup tree t).memory.ksiEventClearQueue n 1 }
            (currentDt (tree.key p) t)).map fun s => { s with ports := setDirtyAt s.ports 1 } := rfl

theorem Tuned.lookup (henum : Enumerates tree notes) (ht : t < 2 ^ 31)
    (h : Tuned tree notes n start t s) :
    (s.lookup tree t).current = (onward tree notes t).head? ∧
      Tuned tree notes n start t (s.lookup tree t) ∧ (s.lookup tree t).memory = s.memory := by
  unfold MidiSeg.lookup
  cases hc : s.current with
  | some p =>
      exact ⟨h.current.resolve_left (by rw [hc]; exact Option.some_ne_none p), h, rfl⟩
  | none =>
      have hbmod : ((t : Int).bmod (2 ^ 32)) = t := Int.bmod_eq_of_le (by omega) (by omega)
      have hfirst := henum.first t (by omega) (by omega)
      rw [hbmod]
      exact ⟨hfirst, ⟨h.later, .inr hfirst, h.freq, h.queue, h.port⟩, rfl⟩

/-- What a call leaves: in port 0 one value for all frames, the frequency of the last note;
in the queue the events of its notes, or, when it is bypassed, what there was. -/
structure Called (tree : Notes) (notes : List NotePtr) (n : NodePtr) (start t bufsize : Nat)
    (s s' : MidiSeg) : Prop where
  tuned : Tuned tree notes n start (t + bufsize) s'
  visible : ∀ i, s'.ports.visible bufsize 0 i = some s'.freq
  queue : (∃ p ∈ notes, (t : Int) ≤ tree.key p ∧ tree.key p ≤ t + bufsize) ∧
      (∃ l, s'.memory.Holds n 1 l ((between tree notes t (t + bufsize)).map tree.event)) ∨
    (¬ ∃ p ∈ notes, (t : Int) ≤ tree.key p ∧ tree.key p ≤ t + bufsize) ∧ s'.memory = s.memory

/-- The cursor when the notes up to the end of the buffer have been passed. -/
theorem Tuned.bypass (henum : Enumerates tree notes) (h : Tuned tree notes n start t s)
    (hcur : s.current = (onward tree notes t).head?)
    (hnone : ¬ ∃ p ∈ notes, (t : Int) ≤ tree.key p ∧ tree.key p ≤ t + bufsize) :
    Called tree notes n start t bufsize s (s.bypass bufsize) := by
  have hs := henum.sorted
  have hnil : between tree notes t (t + bufsize) = [] := by
    rw [List.eq_nil_iff_forall_not_mem]
    intro p hp
    obtain ⟨hp, hle, hlt⟩ := mem_between.mp hp
    exact hnone ⟨p, hp, hle, by omega⟩
  have hcast : ((t + bufsize : Nat) : Int) = t + bufsize := by push_cast; rfl
  obtain ⟨o, ho, htype⟩ := h.port
  have hport : (s.bypass bufsize).ports.outputs[0]? =
      some { o with buffer := Function.update o.buffer (bufsize - 1) s.freq } := by
    unfold MidiSeg.bypass clearAt storeAt
    rw [updateOutput_other, Ports.updateOutput_outputs, if_pos rfl, ho]
    rfl
  refine ⟨⟨by have := h.later; omega, .inr ?_, ?_, h.queue, ⟨_, hport, htype⟩⟩, fun i => ?_,
    .inr ⟨hnone, rfl⟩⟩
  · show s.current = _
    rw [hcur, onward_append hs (show (t : Int) ≤ t + bufsize by omega), hnil, hcast]
    rfl
  · intro hreached
    have hbefore : Reached tree notes start (t - 1) := by
      obtain ⟨p, hp, hle, hlt⟩ := hreached
      refine ⟨p, hp, hle, ?_⟩
      by_contra hge
      exact hnone ⟨p, hp, by omega, by omega⟩
    have hfreq := h.freq hbefore
    unfold freqAt at hfreq ⊢
    rw [Int.sub_add_cancel] at hfreq ⊢
    rw [hcast, below_append hs (show (t : Int) ≤ t + bufsize by omega), hnil, List.append_nil]
    exact hfreq
  · rw [visible_float hport htype]
    simp only [Function.update_self]
    rfl

/-- **A call.** -/
theorem Tuned.call (henum : Enumerates tree notes) (hfuel : notes.length ≤ fuel)
    (ht : t < 2 ^ 31) (h : Tuned tree notes n start t s) (hpos : 1 ≤ bufsize)
    (hF : bufsize < 2 ^ 31) :
    ∃ s', kscarletMidiSeg (some tree) fuel bufsize t n s = some s' ∧
      Called tree notes n start t bufsize s s' := by
  have hs := henum.sorted
  rw [kscarletMidiSeg_eq]
  obtain ⟨hcur, h₁, hmem⟩ := h.lookup henum ht
  generalize s.lookup tree t = s₁ at hcur h₁ hmem ⊢
  have hcalled : ∀ s', Called tree notes n start t bufsize s₁ s' →
      Called tree notes n start t bufsize s s' := by
    intro s' hc
    refine ⟨hc.tuned, hc.visible, ?_⟩
    rw [← hmem]
    exact hc.queue
  cases hhead : s₁.current with
  | none =>
      refine ⟨_, rfl, hcalled _ (h₁.bypass henum hcur ?_)⟩
      rw [hcur] at hhead
      intro hex
      obtain ⟨p, hp, hle, -⟩ := hex
      have hmem := mem_onward.mpr ⟨hp, hle⟩
      rw [List.head?_eq_none_iff.mp hhead] at hmem
      cases hmem
  | some p =>
      have hpcur := hhead
      rw [hcur] at hhead
      obtain ⟨hp, hle⟩ := mem_onward.mp (List.mem_of_mem_head? hhead)
      have hdt := currentDt_eq ht hle (henum.range p hp).2
      by_cases hlate : currentDt (tree.key p) t > bufsize
      · simp only [hlate, if_true]
        refine ⟨_, rfl, hcalled _ (h₁.bypass henum hcur ?_)⟩
        intro hex
        obtain ⟨q, hq, hqle, hqlt⟩ := hex
        -- no note comes before the one at the cursor
        have hpq : tree.key p ≤ tree.key q := by
          obtain ⟨rest, hrest⟩ := List.head?_eq_some_iff.mp hhead
          have hpair : (onward tree notes t).Pairwise fun a b => tree.key a ≤ tree.key b :=
            hs.filter _
          rw [hrest] at hpair
          have hqmem : q ∈ onward tree notes t := mem_onward.mpr ⟨hq, hqle⟩
          rw [hrest] at hqmem
          rcases List.mem_cons.mp hqmem with rfl | hqmem
          · exact Int.le_refl _
          · exact (List.pairwise_cons.mp hpair).1 q hqmem
        omega
      · simp only [hlate, if_false]
        have hstart : AtFrame tree notes n start t 0
            { s₁ with memory := s₁.memory.ksiEventClearQueue n 1 } := by
          refine ⟨?_, ?_, ⟨[], ?_⟩, ?_⟩
          · simpa using hcur
          · simpa using h₁.freq
          · have hnil : between tree notes t (t + (0 : Nat)) = [] := by
              rw [List.eq_nil_iff_forall_not_mem]
              intro q hq
              have := (mem_between.mp hq).2
              omega
            rw [hnil]
            exact EventMemory.holds_clear
          · obtain ⟨o, ho, htype⟩ := h₁.port
            exact ⟨o, ho, htype, fun hlt => absurd hlt (Nat.lt_irrefl 0)⟩
        obtain ⟨s', hframes, hend⟩ := hstart.frames henum hfuel ht bufsize 0 _ (by omega)
        rw [Nat.zero_add] at hend
        have hzero : tree.localNextEvent t (onward tree notes (t + (0 : Nat))).head? =
            currentDt (tree.key p) t := by
          rw [show (t + (0 : Nat) : Int) = t by simp, hhead]
          rfl
        rw [hzero, ← List.range_eq_range'] at hframes
        rw [hframes]
        refine ⟨_, rfl, hcalled _ ?_⟩
        have hcast : ((t + bufsize : Nat) : Int) = t + bufsize := by push_cast; rfl
        obtain ⟨o, ho, htype, hlast⟩ := hend.port
        have hport : (setDirtyAt s'.ports 1).outputs[0]? = some o := by
          unfold setDirtyAt
          rw [updateOutput_other, ho]
        obtain ⟨l, hevents⟩ := hend.events
        refine ⟨⟨by have := h.later; omega, .inr ?_, ?_, ⟨l, _, hevents⟩, ⟨o, hport, htype⟩⟩,
          fun i => ?_, .inl ⟨⟨p, hp, hle, by omega⟩, l, hevents⟩⟩
        · rw [hcast]
          exact hend.current
        · rw [hcast]
          exact hend.freq
        · rw [visible_float hport htype, hlast hpos]

/-! ### Runs of buffers -/

/-- Every buffer of a run leaves the player tuned for the next one. -/
theorem tuned_of_reaches (henum : Enumerates tree notes) (hfuel : notes.length ≤ fuel)
    {s₀ s : Stream} (hfresh : Fresh n s₀.player)
    (h : Reaches (Stream.step tree fuel n) InTime s₀ s) :
    Tuned tree notes n s₀.timeStamp s.timeStamp s.player := by
  refine h.invariant (fun s => Tuned tree notes n s₀.timeStamp s.timeStamp s.player) hfresh.tuned ?_
  intro s bufsize s' htuned htime hstep
  obtain ⟨player, hcall, hcalled⟩ := htuned.call henum hfuel htime.2.2 htime.1 htime.2.1
  unfold Stream.step at hstep
  rw [hcall] at hstep
  obtain rfl := Option.some.inj hstep
  exact hcalled.tuned

/-- After a call the outputs are right exactly if the state before it was as it takes. -/
theorem Called.plays {s' : MidiSeg} (h : Called tree notes n start t bufsize s s')
    (hqueue : ∃ l events, s.memory.Holds n 1 l events) :
    Plays tree notes n start t bufsize s' ↔ Steady tree notes n start t bufsize s := by
  have hcast : ((t + bufsize : Nat) : Int) = t + bufsize := by push_cast; rfl
  -- at a frame where a note has been reached, one has been at the last frame
  have hvisible : ∀ i : Nat, i < bufsize → Reached tree notes start (t + i) →
      s'.ports.visible bufsize 0 i = freqAt tree notes (t + bufsize - 1) := by
    intro i hi hreached
    obtain ⟨p, hp, hle, hlt⟩ := hreached
    have hfreq := h.tuned.freq ⟨p, hp, hle, by omega⟩
    rw [hcast] at hfreq
    rw [h.visible i, hfreq]
  have hfreq : (∀ i : Nat, i < bufsize → Reached tree notes start (t + i) →
        s'.ports.visible bufsize 0 i = freqAt tree notes (t + i)) ↔
      ∀ i : Nat, i < bufsize → Reached tree notes start (t + i) →
        freqAt tree notes (t + i) = freqAt tree notes (t + bufsize - 1) := by
    constructor
    · intro hall i hi hreached
      rw [← hall i hi hreached, hvisible i hi hreached]
    · intro hall i hi hreached
      rw [hall i hi hreached, hvisible i hi hreached]
  have hevents : (∃ l, s'.memory.Holds n 1 l
        ((between tree notes t (t + bufsize)).map tree.event)) ↔
      (∃ p ∈ notes, (t : Int) ≤ tree.key p ∧ tree.key p ≤ t + bufsize) ∨
        (s.memory.queue n 1).tail = none := by
    rcases h.queue with ⟨hsome, hheld⟩ | ⟨hnone, hmem⟩
    · exact ⟨fun _ => .inl hsome, fun _ => hheld⟩
    · have hnil : between tree notes t (t + bufsize) = [] := by
        rw [List.eq_nil_iff_forall_not_mem]
        intro p hp
        obtain ⟨hp, hle, hlt⟩ := mem_between.mp hp
        exact hnone ⟨p, hp, hle, by omega⟩
      rw [hnil, hmem]
      constructor
      · intro hheld
        obtain ⟨l, hheld⟩ := hheld
        have hl : l = [] := List.map_eq_nil_iff.mp hheld.chain.events
        exact .inr (by rw [hheld.chain.first, hl]; rfl)
      · intro hempty
        have htail := hempty.resolve_left hnone
        obtain ⟨l, events, hheld⟩ := hqueue
        have hl : l = [] := by
          rw [← List.head?_eq_none_iff, ← hheld.chain.first]
          exact htail
        subst hl
        have hev : events = [] := hheld.chain.events.symm
        subst hev
        exact ⟨[], hheld⟩
  constructor
  · intro hplays
    exact ⟨hevents.mp hplays.events, hfreq.mp hplays.freq⟩
  · intro hsteady
    exact ⟨hevents.mpr hsteady.queue, hfreq.mpr hsteady.freq⟩

/-- **The outputs of the note player are right exactly in the buffers that are steady.**
After any run of buffers the next call returns, and what it leaves in the queue and in
port 0 is right if and only if the buffer has a note up to its end or finds the queue empty,
and the frequency of the note in force stays the same over the buffer. -/
theorem plays_iff (henum : Enumerates tree notes) (hfuel : notes.length ≤ fuel)
    {s₀ s : Stream} (hfresh : Fresh n s₀.player)
    (h : Reaches (Stream.step tree fuel n) InTime s₀ s) (htime : InTime s bufsize) :
    ∃ s', s.step tree fuel n bufsize = some s' ∧
      (Plays tree notes n s₀.timeStamp s.timeStamp bufsize s'.player ↔
        Steady tree notes n s₀.timeStamp s.timeStamp bufsize s.player) := by
  have htuned := tuned_of_reaches henum hfuel hfresh h
  obtain ⟨player, hcall, hcalled⟩ := htuned.call henum hfuel htime.2.2 htime.1 htime.2.1
  refine ⟨{ player := player, timeStamp := s.timeStamp + bufsize }, ?_,
    hcalled.plays htuned.queue⟩
  unfold Stream.step
  rw [hcall]
  rfl

/-- Three notes, with the keys 0, 2 and 100. -/
def threeNotes : Notes where
  key := fun p => if p = 0 then 0 else if p = 1 then 2 else 100
  freq := fun p => if p = 0 then 440 else if p = 1 then 880 else 660
  velocity := fun _ => 100
  ksiRBTreeNextForKey := fun k =>
    if k ≤ 0 then some 0 else if k ≤ 2 then some 1 else if k ≤ 100 then some 2 else none
  ksiRBTreeNext := fun p => if p = 0 then some 1 else if p = 1 then some 2 else none

theorem threeNotes_enumerates : Enumerates threeNotes [0, 1, 2] := by
  have hall : ∀ k : Int, threeNotes.ksiRBTreeNextForKey k =
        ([0, 1, 2].filter fun p => k ≤ threeNotes.key p).head? ∧
      Linked threeNotes.ksiRBTreeNext ([0, 1, 2].filter fun p => k ≤ threeNotes.key p) := by
    intro k
    have hkeys : ([0, 1, 2].filter fun p => k ≤ threeNotes.key p) =
        if k ≤ 0 then [0, 1, 2] else if k ≤ 2 then [1, 2] else if k ≤ 100 then [2] else [] := by
      by_cases h₀ : k ≤ 0
      · have h₂ : k ≤ 2 := by omega
        have h₁₀₀ : k ≤ 100 := by omega
        simp [threeNotes, h₀, h₂, h₁₀₀]
      · by_cases h₂ : k ≤ 2
        · have h₁₀₀ : k ≤ 100 := by omega
          simp [threeNotes, h₀, h₂, h₁₀₀]
        · by_cases h₁₀₀ : k ≤ 100
          · simp [threeNotes, h₀, h₂, h₁₀₀]
          · simp [threeNotes, h₀, h₂, h₁₀₀]
    rw [hkeys]
    unfold threeNotes
    by_cases h₀ : k ≤ 0
    · simp only [h₀, if_true]
      exact ⟨rfl, rfl, rfl, rfl, trivial⟩
    · by_cases h₂ : k ≤ 2
      · simp only [h₀, h₂, if_false, if_true]
        exact ⟨rfl, rfl, rfl, trivial⟩
      · by_cases h₁₀₀ : k ≤ 100
        · simp only [h₀, h₂, h₁₀₀, if_false, if_true]
          exact ⟨rfl, rfl, trivial⟩
        · simp only [h₀, h₂, h₁₀₀, if_false]
          exact ⟨rfl, trivial⟩
  exact ⟨by decide, by decide, fun k _ _ => (hall k).1, fun k _ _ => (hall k).2⟩

/-- A player that has been reset, at time 0. -/
def resetPlayer : Stream where
  player :=
    { current := none
      freq := 0
      memory :=
        { node := fun _ => { next := none, e := { timeStamp := 0, data := 0 } }
          nextNode := 0
          queue := fun _ _ => { head := none, tail := none }
          ees := fun _ _ => [] }
      ports :=
        { inputs := []
          outputs := [{ type := ksiNodePortTypeFloat, buffer := fun _ => 0 },
            { type := ksiNodePortTypeEventGate, buffer := fun _ => 0 }] } }
  timeStamp := 0

theorem resetPlayer_fresh : Fresh 12 resetPlayer.player :=
  ⟨rfl, ⟨[], [], ⟨trivial, rfl, rfl⟩, rfl, List.nodup_nil, fun p hp => by cases hp⟩, _, rfl, rfl⟩

theorem plays_iff_threeNotes : ∃ s', resetPlayer.step threeNotes 3 12 4 = some s' ∧
    (Plays threeNotes [0, 1, 2] 12 0 0 4 s'.player ↔
      Steady threeNotes [0, 1, 2] 12 0 0 4 resetPlayer.player) :=
  plays_iff threeNotes_enumerates (Nat.le_refl 3) resetPlayer_fresh .refl (by unfold InTime; decide)

/-- In the first buffer the frequency of the second note is there from the first frame on;
the second buffer, in which there is no note, still has the events of the first one. -/
theorem not_plays : Enumerates threeNotes [0, 1, 2] ∧ Fresh 12 resetPlayer.player ∧
    ∃ s₁ s₂, resetPlayer.step threeNotes 3 12 4 = some s₁ ∧ s₁.step threeNotes 3 12 4 = some s₂ ∧
      ¬ Plays threeNotes [0, 1, 2] 12 0 0 4 s₁.player ∧ ¬ Plays threeNotes
        [0, 1, 2] 12 0 4 4 s₂.player := by
  refine ⟨threeNotes_enumerates, resetPlayer_fresh, _, _, rfl, rfl, fun h => ?_, fun h => ?_⟩
  · have hfreq := h.freq 0 (by decide) ⟨0, by decide, by decide, by decide⟩
    revert hfreq
    decide
  · obtain ⟨l, hheld⟩ := h.events
    have hl : l = [] := List.map_eq_nil_iff.mp hheld.chain.events
    have htail := hheld.chain.first
    rw [hl] at htail
    cases htail

end Ksi.Audio.Scarlet
