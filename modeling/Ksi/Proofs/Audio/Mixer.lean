/-
What the mixer leaves in a port is the weighted sum of its entries.

A source counts with its sample at a frame if its output is dirty, and with its last sample
if it is clean.  The mixer adds in two passes, first the clean sources and the biases, which
have one value for all frames, then the dirty sources frame by frame; as the sum does not
depend on the order, the passes together are one sum over all entries.  A port without a
buffer points to its only source, and hands on the source's dirty bit with it.

A port's own buffer is the place of the sum, so nothing else may be there: it is no other
port's, and no source's.
-/
import Ksi.Proofs.Audio.Frame
import Ksi.Proofs.Dag.Ownership
import Ksi.Audio.Mixer
import Mathlib.Data.List.Basic

namespace Ksi.Audio

open Ksi.Dag Prog

variable {c : Cycle} {m m' : Memory} {n : NodePtr} {node : KsiNode} {i j f : Nat} {buf : BufPtr}
  {me : Entry} {entries : List Entry} {k : Sounds} {type : PortType} {v : Nat → KsiData}
  {d : Prop} {E : Empty → Memory → Prop}

/-! ### The sum -/

/-- The ports whose samples are integers. -/
inductive Integral
  | int32 | gate
  deriving DecidableEq, Repr

namespace Integral

def flag : Integral → PortType
  | int32 => ksiNodePortTypeInt32
  | gate => ksiNodePortTypeGate

/-- How samples are added up. -/
def add : Integral → KsiData → KsiData → KsiData
  | int32 => (· + ·)
  | gate => (· ||| ·)

/-- How a sample is weighted. -/
def weigh : Integral → KsiData → KsiData → KsiData
  | int32 => (· * ·)
  | gate => (· ||| ·)

variable (p : Integral)

theorem add_right_comm (x y z : KsiData) : p.add (p.add x y) z = p.add (p.add x z) y := by
  cases p with
  | int32 => exact (BitVec.add_assoc x y z).trans ((congrArg (x + ·) (BitVec.add_comm y z)).trans
      (BitVec.add_assoc x z y).symm)
  | gate => exact (BitVec.or_assoc x y z).trans ((congrArg (x ||| ·) (BitVec.or_comm y z)).trans
      (BitVec.or_assoc x z y).symm)

@[simp] theorem zero_add (x : KsiData) : p.add 0#32 x = x := by
  cases p with
  | int32 => exact BitVec.zero_add x
  | gate => exact BitVec.zero_or

end Integral

/-- The output port that an entry is a wire from. -/
def Cycle.source (c : Cycle) (m : Memory) (me : Entry) : Option OutputBuffer :=
  me.src.bind fun src => (c.version.graph.heap src).bind fun node =>
    (nth node.outputs me.srcPort).bind fun _ =>
      (c.version.outputBuffer src me.srcPort.toNat).map fun b =>
        { type := m.types (outputTypes src node) me.srcPort.toNat, buffer := m.samples b }

/-- What an entry contributes at a frame: the source's value, weighted, or the bias. -/
def Cycle.term (c : Cycle) (p : Integral) (m : Memory) (f : Nat) (me : Entry) : KsiData :=
  match c.source m me with
  | some o => p.weigh (o.visible c.framesPerBuffer f) me.gain
  | none => me.gain

/-- **What a port stands for**: the sum of its entries at a frame. -/
def Cycle.mix (c : Cycle) (p : Integral) (m : Memory) (entries : List Entry) (f : Nat) : KsiData :=
  (entries.map (c.term p m f)).foldl p.add 0

/-! ### Reading the sources -/

/-- The entry is a wire from a dirty output. -/
def Cycle.dirty (c : Cycle) (m : Memory) (me : Entry) : Bool :=
  (c.source m me).any fun o => isDirty o.type

/-- The wires lead somewhere. -/
def Cycle.Wired (c : Cycle) (m : Memory) (entries : List Entry) : Prop :=
  ∀ me ∈ entries, me.src.isSome → (c.source m me).isSome

/-- The buffer is not the one of a source. -/
def Cycle.Apart (c : Cycle) (buf : BufPtr) (entries : List Entry) : Prop :=
  ∀ me ∈ entries, ∀ src, me.src = some src →
    c.version.outputBuffer src me.srcPort.toNat ≠ some buf

/-- A source is what it was as long as its type and its samples are. -/
theorem source_congr
    (htypes : ∀ src node j, m'.types (outputTypes src node) j = m.types (outputTypes src node) j)
    (hsamples : ∀ src b, me.src = some src → c.version.outputBuffer src me.srcPort.toNat = some b →
      m'.samples b = m.samples b) : c.source m' me = c.source m me := by
  unfold Cycle.source
  cases hsrc : me.src with
  | none => rfl
  | some src =>
      simp only [Option.bind_some]
      refine Option.bind_congr fun node _ => Option.bind_congr fun _ _ => ?_
      refine Option.map_congr fun b hb => ?_
      rw [htypes, hsamples src b hsrc hb]

theorem Memory.put_samples (b : BufPtr) :
    (m.put buf v).samples b = if b = buf then v else m.samples b := by
  unfold Memory.put
  by_cases hb : b = buf
  · subst hb
    simp
  · simp [hb]

theorem source_put (hapart : c.Apart buf entries) (hme : me ∈ entries) :
    c.source (m.put buf v) me = c.source m me := by
  refine source_congr (fun _ _ _ => rfl) fun src b hsrc hb => ?_
  rw [Memory.put_samples, if_neg]
  rintro rfl
  exact hapart me hme src hsrc hb

theorem source_none (hsrc : me.src = none) : c.source m me = none := by
  unfold Cycle.source
  rw [hsrc]
  rfl

theorem dirty_none (hsrc : me.src = none) : c.dirty m me = false := by
  rw [Cycle.dirty, source_none hsrc]
  rfl

theorem dirty_some {o : OutputBuffer} (ho : c.source m me = some o) :
    c.dirty m me = isDirty o.type := by
  rw [Cycle.dirty, ho]
  rfl

/-- What is read of a source. -/
theorem source_some {src : NodePtr} {o : OutputBuffer} (hsrc : me.src = some src)
    (ho : c.source m me = some o) : c.sourceType src me.srcPort m = some (.ok o.type, m) ∧
      c.sourceBuffer src me.srcPort m = some (.ok o.buffer, m) := by
  unfold Cycle.source at ho
  rw [hsrc, Option.bind_some] at ho
  obtain ⟨node, hnode, ho⟩ := Option.bind_eq_some_iff.mp ho
  obtain ⟨t, ht, ho⟩ := Option.bind_eq_some_iff.mp ho
  obtain ⟨b, hb, rfl⟩ := Option.map_eq_some_iff.mp ho
  unfold Cycle.sourceType Cycle.sourceBuffer Prog.read
  simp [hnode, ht, hb]

theorem wp_sourceType_of {src : NodePtr} {o : OutputBuffer} {Q : PortType → Memory → Prop}
    (hsrc : me.src = some src) (ho : c.source m me = some o) :
    wp d (c.sourceType src me.srcPort) m Q E ↔ Q o.type m := wp_of_ok (source_some hsrc ho).1

theorem wp_sourceSample_of {src : NodePtr} {o : OutputBuffer} {Q : KsiData → Memory → Prop}
    (hsrc : me.src = some src) (ho : c.source m me = some o) :
    wp d (c.sourceSample src me.srcPort i) m Q E ↔ Q (o.buffer i) m := by
  unfold Cycle.sourceSample
  rw [wp_bind]
  exact wp_of_ok (source_some hsrc ho).2

theorem wp_storeSamples {g : (Nat → KsiData) → Nat → KsiData} {Q : Unit → Memory → Prop} :
    wp d (storeSamples buf g) (m.put buf v) Q E ↔ Q () (m.put buf (g v)) := by
  unfold storeSamples
  rw [wp_modify]
  simp [Memory.put]

@[simp] theorem wp_storeSample {g : KsiData → KsiData} {Q : Unit → Memory → Prop} :
    wp d (storeSample buf i g) (m.put buf v) Q E ↔
      Q () (m.put buf (Function.update v i (g (v i)))) := wp_storeSamples

/-- What an entry makes of a sample. -/
def Cycle.blend (c : Cycle) (k : Sounds) (type : PortType) (m : Memory) (f : Nat) (s : KsiData)
    (me : Entry) : KsiData :=
  match c.source m me with
  | some o => ksiDataWeightedIncrease k s (o.visible c.framesPerBuffer f) me.gain type
  | none => ksiDataIncrease k s me.gain type

/-- The last sample is what a consumer of a clean output sees at any frame. -/
theorem visible_cache (o : OutputBuffer) :
    o.visible c.framesPerBuffer c.cache = o.buffer c.cache := by
  unfold OutputBuffer.visible Cycle.cache
  exact ite_self _

/-! ### The two passes -/

/-- The first pass adds the biases and the clean sources to the last sample. -/
theorem addClean_wp (entries : List Entry) (hwired : c.Wired m entries)
    (hapart : c.Apart buf entries) :
    ∀ {v : Nat → KsiData} {dirty : Bool},
      wp d (c.addClean k type buf entries dirty) (m.put buf v) (fun r m' =>
        r = (dirty || entries.any (c.dirty m)) ∧
        m' = m.put buf (Function.update v c.cache
          ((entries.filter fun me => !c.dirty m me).foldl (c.blend k type m c.cache) (v c.cache))))
            E := by
  induction entries with
  | nil =>
      intro v dirty
      exact ⟨(Bool.or_false dirty).symm, by simp⟩
  | cons me rest ih =>
      intro v dirty
      obtain ⟨hme, hrest⟩ := List.forall_mem_cons.mp hwired
      obtain ⟨-, hapart'⟩ := List.forall_mem_cons.mp hapart
      replace ih := fun v dirty => @ih hrest hapart' v dirty
      unfold Cycle.addClean
      cases hsrc : me.src with
      | none =>
          have hnone := source_none (c := c) (m := m) hsrc
          have hclean := dirty_none (c := c) (m := m) hsrc
          simp only
          rw [wp_bind, wp_storeSample]
          refine wp_mono (ih _ dirty) (fun r m' h => ⟨?_, ?_⟩) fun _ _ h => h
          · rw [h.1, List.any_cons, hclean, Bool.false_or]
          · rw [h.2]
            simp [hclean, Cycle.blend, hnone]
      | some src =>
          obtain ⟨o, ho⟩ := Option.isSome_iff_exists.mp (hme (by rw [hsrc]; rfl))
          have ho' : c.source (m.put buf v) me = some o :=
            (source_put hapart (List.mem_cons_self ..)).trans ho
          have hdirty := dirty_some ho
          simp only
          rw [wp_bind, wp_sourceType_of hsrc ho', wp_ite]
          refine ⟨fun h => ?_, fun h => ?_⟩
          · refine wp_mono (ih v true) (fun r m' h' => ⟨?_, ?_⟩) fun _ _ h => h
            · rw [h'.1, List.any_cons, hdirty, h]
              simp
            · rw [h'.2, List.filter_cons, hdirty, h]
              rfl
          · have hclean : c.dirty m me = false := hdirty.trans (Bool.eq_false_iff.mpr h)
            rw [wp_bind, wp_sourceSample_of hsrc ho', wp_bind, wp_storeSample]
            refine wp_mono (ih _ dirty) (fun r m' h' => ⟨?_, ?_⟩) fun _ _ h => h
            · rw [h'.1, List.any_cons, hclean, Bool.false_or]
            · rw [h'.2]
              simp [hclean, Cycle.blend, ho, visible_cache]

/-- The rest of the buffer is filled with it. -/
theorem spread_wp : wp d (c.spread buf) (m.put buf v) (fun _ m' =>
    m' = m.put buf fun j => if j < c.cache then v c.cache else v j) E := by
  refine wp_forRange (fun i m' => m' = m.put buf fun j => if j < i then v c.cache else v j)
    (fun i m₁ hi h₁ => ?_) (by simp)
  subst h₁
  rw [wp_bind, wp_read]
  refine ⟨nofun, fun x hx => ?_⟩
  obtain rfl := Option.some.inj hx
  rw [wp_storeSample]
  congr 1
  funext j
  rw [Memory.put_samples, if_pos rfl, if_neg (Nat.lt_asymm hi)]
  by_cases hj : j = i
  · subst hj
    simp
  · rw [Function.update_of_ne hj]
    have hiff : j < i + 1 ↔ j < i := by omega
    simp only [hiff]

/-- The second pass adds a dirty source to every sample. -/
theorem addEntry_wp (hwired : me.src.isSome → (c.source m me).isSome) (hapart : c.Apart buf [me]) :
    wp d (c.addEntry k type buf me) (m.put buf v) (fun _ m' => m' = m.put buf fun i =>
      if i < c.framesPerBuffer ∧ c.dirty m me = true then c.blend k type m i (v i) me
        else v i) E := by
  unfold Cycle.addEntry
  cases hsrc : me.src with
  | none =>
      have hclean := dirty_none (c := c) (m := m) hsrc
      simp [hclean]
  | some src =>
      obtain ⟨o, ho⟩ := Option.isSome_iff_exists.mp (hwired (by rw [hsrc]; rfl))
      have hput : ∀ v', c.source (m.put buf v') me = some o := fun v' =>
        (source_put hapart (List.mem_cons_self ..)).trans ho
      have hdirty := dirty_some ho
      dsimp only
      rw [wp_bind, wp_sourceType_of hsrc (hput v), wp_when]
      refine ⟨fun h => ?_, fun h => by simp [hdirty, h]⟩
      simp only [hdirty, h, and_true]
      refine wp_forRange (fun i m' => m' = m.put buf fun j =>
        if j < i then c.blend k type m j (v j) me else v j) (fun i m₁ _ h₁ => ?_) (by simp)
      subst h₁
      rw [wp_bind, wp_sourceSample_of hsrc (hput _), wp_storeSample]
      congr 1
      funext j
      by_cases hj : j = i
      · subst hj
        simp [Cycle.blend, ho, OutputBuffer.visible, h]
      · rw [Function.update_of_ne hj]
        have hiff : j < i + 1 ↔ j < i := by omega
        simp only [hiff]

theorem addDirty_wp (entries : List Entry) (hwired : c.Wired m entries)
    (hapart : c.Apart buf entries) :
    ∀ {v : Nat → KsiData}, wp d (Prog.forEach entries (c.addEntry k type buf)) (m.put buf v)
      (fun _ m' => m' = m.put buf fun i => if i < c.framesPerBuffer then
        (entries.filter (c.dirty m)).foldl (c.blend k type m i) (v i) else v i) E := by
  induction entries with
  | nil =>
      intro v
      simp [Prog.forEach]
  | cons me rest ih =>
      intro v
      obtain ⟨hme, hrest⟩ := List.forall_mem_cons.mp hwired
      obtain ⟨hapart, haparts⟩ := List.forall_mem_cons.mp hapart
      unfold Prog.forEach
      rw [wp_bind]
      refine wp_mono (addEntry_wp hme (List.forall_mem_singleton.mpr hapart)) (fun _ m₁ h₁ => ?_)
        fun _ _ h => h
      subst h₁
      refine wp_mono (ih hrest haparts) (fun _ m' h => ?_) fun _ _ h => h
      rw [h]
      congr 1
      funext i
      by_cases hi : i < c.framesPerBuffer <;> by_cases hdirty : c.dirty m me = true <;>
        simp [hi, hdirty]

/-! ### A port -/

/-- The memory with another type of a port. -/
def Memory.mark (m : Memory) (ref : TypesRef) (i : Nat) (t : PortType) : Memory :=
  { m with types := Function.update m.types ref (Function.update (m.types ref) i t) }

theorem wp_storeType_mark {ref : TypesRef} {g : PortType → PortType} {Q : Unit → Memory → Prop} :
    wp d (storeType ref i g) m Q E ↔ Q () (m.mark ref i (g (m.types ref i))) := Iff.rfl

/-- The sum of the biases and of the clean sources. -/
def Cycle.cleanSum (c : Cycle) (k : Sounds) (type : PortType) (m : Memory) (entries : List Entry) :
    KsiData :=
  (entries.filter fun me => !c.dirty m me).foldl (c.blend k type m c.cache) 0

/-- What the passes leave in a port's own buffer. -/
def Cycle.summed (c : Cycle) (k : Sounds) (type : PortType) (m : Memory) (buf : BufPtr)
    (entries : List Entry) (f : Nat) : KsiData :=
  if entries.any (c.dirty m) ∧ f < c.framesPerBuffer then
    (entries.filter (c.dirty m)).foldl (c.blend k type m f) (c.cleanSum k type m entries)
  else Function.update (m.samples buf) c.cache (c.cleanSum k type m entries) f

theorem wp_storeSummed {ref : TypesRef} {w : Nat → KsiData}
    (hw : w = c.summed k type m buf entries) :
    wp d (storeType ref i fun t => (t &&& ~~~ksiNodePortIOMask) |||
      (if entries.any (c.dirty m) then ksiNodePortIODirty else 0)) (m.put buf w) (fun _ m' =>
        m' = (m.put buf (c.summed k type m buf entries)).mark ref i
          (withIoBit (m.types ref i) (entries.any (c.dirty m)))) E := by
  subst hw
  rw [wp_storeType_mark, withIoBit_eq]
  rfl

theorem mixInto_wp {ref : TypesRef} (hwired : c.Wired m entries) (hapart : c.Apart buf entries) :
    wp d (c.mixInto k type buf entries ref i) m (fun _ m' =>
      m' = (m.put buf (c.summed k type m buf entries)).mark ref i
        (withIoBit (m.types ref i) (entries.any (c.dirty m)))) E := by
  have hself : m = m.put buf (m.samples buf) := by simp [Memory.put]
  unfold Cycle.mixInto
  rw [wp_bind]
  conv => arg 3; rw [hself]
  rw [wp_storeSample, wp_bind]
  refine wp_mono (addClean_wp entries hwired hapart) ?_ fun _ _ h => h
  rintro dirty m₁ ⟨rfl, rfl⟩
  rw [Bool.false_or, wp_bind, wp_when]
  simp only [Function.update_idem, Function.update_self]
  constructor
  · intro hany
    rw [wp_bind]
    refine wp_mono spread_wp (fun _ m₁ h₁ => ?_) fun _ _ h => h
    subst h₁
    refine wp_mono (addDirty_wp entries hwired hapart) (fun _ m₁ h₁ => ?_) fun _ _ h => h
    subst h₁
    refine wp_storeSummed (funext fun f => ?_)
    have hfill : ∀ f, (if f < c.cache then c.cleanSum k type m entries else
        Function.update (m.samples buf) c.cache (c.cleanSum k type m entries) f) =
          if f < c.framesPerBuffer then c.cleanSum k type m entries
          else Function.update (m.samples buf) c.cache (c.cleanSum k type m entries) f := by
      -- the last sample is not filled: it is what the others are filled with
      intro f
      by_cases hlast : f = c.cache
      · rw [hlast, Function.update_self, ite_self, ite_self]
      · have hiff : f < c.cache ↔ f < c.framesPerBuffer := by
          unfold Cycle.cache at hlast ⊢
          omega
        simp only [hiff]
    unfold Cycle.summed
    simp only [hany, true_and, Function.update_self]
    refine (congrArg (fun x => if f < c.framesPerBuffer then
      (entries.filter (c.dirty m)).foldl (c.blend k type m f) x else x) (hfill f)).trans ?_
    by_cases hf : f < c.framesPerBuffer <;> simp [hf]
  · intro hany
    refine wp_storeSummed (funext fun f => ?_)
    unfold Cycle.summed
    rw [if_neg fun h => hany h.1]
    rfl

theorem mixDirect_wp_of {ref : TypesRef} (hwired : c.Wired m entries) :
    wp d (c.mixDirect entries ref i) m (fun _ m' =>
      m' = m.mark ref i (withIoBit (m.types ref i) (entries.head?.any (c.dirty m)))) E := by
  unfold Cycle.mixDirect
  cases entries with
  | nil => rfl
  | cons me rest =>
      simp only [List.head?_cons, Option.any_some]
      cases hsrc : me.src with
      | none =>
          have hclean := dirty_none (c := c) (m := m) hsrc
          rw [hclean]
          rfl
      | some src =>
          obtain ⟨o, ho⟩ := Option.isSome_iff_exists.mp
            (hwired me (List.mem_cons_self ..) (by rw [hsrc]; rfl))
          have hdirty := dirty_some ho
          dsimp only
          rw [wp_bind, wp_sourceType_of hsrc ho, hdirty]
          cases isDirty o.type <;> rfl

/-- The buffer that port `i` mixes into. -/
def Cycle.MixesInto (c : Cycle) (m : Memory) (n : NodePtr) (node : KsiNode) (i : Nat) (b : BufPtr) :
    Prop :=
  (m.types (inputTypes n node) i).isEvent = false ∧ (c.version.env n i).buffer = some b

/-- What mixing leaves in a port with these entries. -/
def Cycle.Leaves (c : Cycle) (n : NodePtr) (node : KsiNode) (i : Nat) (entries : List Entry)
    (m m' : Memory) : Prop :=
  let ref := inputTypes n node
  if (m.types ref i).isEvent then m' = m
  else match (c.version.env n i).buffer with
    | some buf =>
        m' = (m.put buf (c.summed (c.sounds n) (m.types ref i) m buf entries)).mark ref i
          (withIoBit (m.types ref i) (entries.any (c.dirty m)))
    | none => m' = m.mark ref i (withIoBit (m.types ref i) (entries.head?.any (c.dirty m)))

theorem mixPort_wp {input : InputPort} (hi : node.inputs[i]? = some input)
    (hwired : (m.types (inputTypes n node) i).isEvent = false → c.Wired m input.entries)
    (hapart : ∀ b, c.MixesInto m n node i b → c.Apart b input.entries) :
    wp d (c.mixPort n node i) m (fun _ m' => c.Leaves n node i input.entries m m') E := by
  unfold Cycle.mixPort
  rw [wp_bind, wp_read]
  refine ⟨fun h => absurd (hi.symm.trans h) nofun, fun input' hinput => ?_⟩
  obtain rfl := Option.some.inj (hi.symm.trans hinput)
  rw [wp_bind, wp_read]
  refine ⟨nofun, fun type htype => ?_⟩
  obtain rfl := Option.some.inj htype
  unfold Cycle.Leaves
  dsimp only
  rw [wp_ite]
  refine ⟨fun hevent => ?_, fun hsignal => ?_⟩
  · rw [wp_pure]
    simp only [hevent, if_true]
  · simp only [hsignal]
    replace hsignal := Bool.eq_false_iff.mpr hsignal
    replace hwired := hwired hsignal
    cases hbuf : (c.version.env n i).buffer with
    | some buf => exact mixInto_wp hwired (hapart buf ⟨hsignal, hbuf⟩)
    | none => exact mixDirect_wp_of hwired

/-- It leaves the other ports alone. -/
structure Cycle.Only (c : Cycle) (n : NodePtr) (node : KsiNode) (i : Nat)
    (m m' : Memory) : Prop where
  types : ∀ ref j, ¬ (ref = inputTypes n node ∧ j = i) → m'.types ref j = m.types ref j
  samples : ∀ b, ¬ c.MixesInto m n node i b → m'.samples b = m.samples b

theorem Memory.mark_types {ref ref' : TypesRef} {t : PortType} :
    (m.mark ref i t).types ref' j = if ref' = ref ∧ j = i then t else m.types ref' j := by
  unfold Memory.mark
  by_cases href : ref' = ref
  · subst href
    by_cases hj : j = i <;> simp [hj]
  · simp [href]

@[simp] theorem Memory.mark_self {ref : TypesRef} {t : PortType} :
    (m.mark ref i t).types ref i = t := by
  simp [Memory.mark]

theorem Cycle.Leaves.only (h : c.Leaves n node i entries m m') : c.Only n node i m m' := by
  unfold Cycle.Leaves at h
  dsimp only at h
  split at h
  · subst h
    exact ⟨fun _ _ _ => rfl, fun _ _ => rfl⟩
  · rename_i hsignal
    split at h
    · rename_i buf hbuf
      subst h
      refine ⟨fun ref j hne => ?_, fun b hb => ?_⟩
      · rw [Memory.mark_types, if_neg hne]
        rfl
      · refine (Memory.put_samples b).trans (if_neg ?_)
        rintro rfl
        exact hb ⟨Bool.eq_false_iff.mpr hsignal, hbuf⟩
    · subst h
      refine ⟨fun ref j hne => ?_, fun _ _ => rfl⟩
      rw [Memory.mark_types, if_neg hne]

/-! ### One sum -/

theorem blend_eq (p : Integral) (htype : type &&& ksiNodePortTypeMask = p.flag) (s : KsiData)
    (me : Entry) : c.blend k type m f s me = p.add s (c.term p m f me) := by
  unfold Cycle.blend Cycle.term ksiDataWeightedIncrease ksiDataIncrease
  rw [htype]
  cases p <;> cases c.source m me <;> rfl

/-- A clean source has one value. -/
theorem term_clean (p : Integral) (hclean : c.dirty m me = false) (f f' : Nat) :
    c.term p m f me = c.term p m f' me := by
  unfold Cycle.term
  cases ho : c.source m me with
  | none => rfl
  | some o =>
      have hbit : isDirty o.type = false := by rwa [Cycle.dirty, ho] at hclean
      simp [OutputBuffer.visible, hbit]

/-- The two passes add up all entries. -/
theorem passes_mix (p : Integral) (htype : type &&& ksiNodePortTypeMask = p.flag)
    (entries : List Entry) :
    (entries.filter (c.dirty m)).foldl (c.blend k type m f) (c.cleanSum k type m entries) =
      c.mix p m entries f := by
  unfold Cycle.cleanSum
  have hblend : ∀ g, c.blend k type m g = fun s me => p.add s (c.term p m g me) := fun g =>
    funext fun s => funext fun me => blend_eq p htype s me
  have hclean : (entries.filter fun me => !c.dirty m me).foldl
      (fun s me => p.add s (c.term p m c.cache me)) 0 =
        (entries.filter fun me => !c.dirty m me).foldl
          (fun s me => p.add s (c.term p m f me)) 0 := by
    refine List.foldl_ext _ _ _ fun s me hme => ?_
    have hbit : c.dirty m me = false := by simpa using (List.mem_filter.mp hme).2
    rw [term_clean p hbit]
  have hcomm : ∀ a ∈ entries, ∀ b ∈ entries, ∀ s : KsiData,
      p.add (p.add s (c.term p m f a)) (c.term p m f b) =
        p.add (p.add s (c.term p m f b)) (c.term p m f a) := fun _ _ _ _ _ => p.add_right_comm _ _ _
  have hperm : ((entries.filter fun me => !c.dirty m me) ++ entries.filter (c.dirty m)).Perm
    entries := by
    have h := List.filter_append_perm (c.dirty m) entries
    exact List.perm_append_comm.trans h
  rw [hblend, hblend, hclean, ← List.foldl_append, Cycle.mix, List.foldl_map]
  exact hperm.foldl_eq' (fun a ha b hb s =>
    (hcomm a (hperm.subset ha) b (hperm.subset hb) s)) 0

/-! ### What the node reads -/

/-- `buffer` and `internalBufferPtr` of an input port with these entries, as `refreshCopying`
sets them on a fresh port.  A buffer of its own fits any entries. -/
inductive Cycle.Refreshed (c : Cycle) (p : Integral) (n : NodePtr) (i : Nat) : List Entry → Prop
  | unused (hptr : (c.version.env n i).internalBufferPtr = none) : c.Refreshed p n i []
  | wire {me : Entry} {src : NodePtr} (hsrc : me.src = some src)
      (hunit : ksiDataIsUnit me.gain p.flag = true)
      (hbuf : (c.version.env n i).buffer = none)
      (hptr : (c.version.env n i).internalBufferPtr = c.version.outputBuffer src me.srcPort.toNat) :
      c.Refreshed p n i [me]
  | bias {me : Entry} (hsrc : me.src = none) (hunit : ksiDataIsUnit me.gain p.flag = true)
      (hbuf : (c.version.env n i).buffer = none)
      (hptr : (c.version.env n i).internalBufferPtr = none) : c.Refreshed p n i [me]
  | own {buf : BufPtr} {entries : List Entry} (hbuf : (c.version.env n i).buffer = some buf)
      (hptr : (c.version.env n i).internalBufferPtr = some buf) : c.Refreshed p n i entries

@[simp] theorem isDirty_withIoBit (t : PortType) (b : Bool) : isDirty (withIoBit t b) = b := by
  cases b <;> simp [withIoBit]

theorem Integral.not_event (p : Integral) (htype : type &&& ksiNodePortTypeMask = p.flag) :
    type.isEvent = false := by
  have hmask : type &&& ksiNodePortTypeEventFlag =
      (type &&& ksiNodePortTypeMask) &&& ksiNodePortTypeEventFlag := by
    rw [BitVec.and_assoc]
    rfl
  unfold PortType.isEvent
  rw [hmask, htype]
  cases p <;> rfl

/-- A unit gain weighs nothing. -/
theorem Integral.weigh_unit (p : Integral) {gain : KsiData}
    (hunit : ksiDataIsUnit gain p.flag = true) (x : KsiData) : p.weigh x gain = x := by
  cases p with
  | int32 =>
      have hgain : (gain == 1) = true := hunit
      obtain rfl := eq_of_beq hgain
      exact BitVec.mul_one x
  | gate =>
      have hgain : (gain == 0) = true := hunit
      obtain rfl := eq_of_beq hgain
      exact BitVec.or_zero

/-- The unit gain does not depend on the flags of the type. -/
theorem Integral.isUnit_flag (p : Integral) (htype : type &&& ksiNodePortTypeMask = p.flag)
    (gain : KsiData) : ksiDataIsUnit gain type = ksiDataIsUnit gain p.flag := by
  have hflag : p.flag &&& ksiNodePortTypeMask = p.flag := by cases p <;> rfl
  unfold ksiDataIsUnit
  rw [htype, hflag]

/-- `refreshCopying` sets up a fresh port so. -/
theorem refreshCopying_fresh (p : Integral) {e : Engine} {input : InputPort}
    (sounds : NodePtr → Sounds)
    (hinput : (e.graph.heap n).bind (fun node => node.inputs[i]?) = some input)
    (htype : input.type &&& ksiNodePortTypeMask = p.flag) (hframes : e.framesPerBuffer ≠ 0)
    (hfresh : e.env n i = { buffer := none, internalBufferPtr := none }) :
    wp True (refreshCopying n i .editing) e (fun _ e' =>
      Cycle.Refreshed
        { version := e'.toVersion, framesPerBuffer := e.framesPerBuffer, sounds := sounds }
        p n i input.entries) fun _ _ => True := by
  have hput : ∀ (e : Engine) v, (e.putEnv n i v).env n i = v := fun e v => by
    rw [Engine.putEnv_env, if_pos ⟨rfl, rfl⟩]
  -- a buffer of its own is a new one
  have hmixing : ∀ entries, wp True (refreshMixing n i .editing) e (fun _ e' => Cycle.Refreshed
      { version := e'.toVersion, framesPerBuffer := e.framesPerBuffer, sounds := sounds } p n i
        entries)
      fun _ _ => True := by
    intro entries
    unfold refreshMixing
    rw [wp_bind, wp_read]
    refine ⟨nofun, fun env henv => ?_⟩
    obtain rfl : env = { buffer := none, internalBufferPtr := none } :=
      (Option.some.inj henv).symm.trans hfresh
    dsimp only
    rw [wp_bind, wp_read]
    refine ⟨nofun, fun frames hf => ?_⟩
    obtain rfl := Option.some.inj hf
    rw [wp_bind, wp_malloc]
    refine ⟨fun hzero => absurd hzero (Nat.mul_ne_zero (by decide) hframes), fun _ => ?_⟩
    rw [wp_setEnv]
    exact .own (congrArg SignalEnv.buffer (hput _ _))
      (congrArg SignalEnv.internalBufferPtr (hput _ _))
  unfold refreshCopying loadInput
  rw [wp_bind, wp_read]
  refine ⟨fun _ => trivial, fun input' hinput' => ?_⟩
  obtain rfl := Option.some.inj (hinput.symm.trans hinput')
  rw [wp_ite]
  refine ⟨fun hevent => absurd (p.not_event htype) (by rw [hevent]; nofun), fun _ => ?_⟩
  split
  · rename_i hnil
    rw [wp_setEnv, hnil, hfresh]
    exact .unused (congrArg SignalEnv.internalBufferPtr (hput _ _))
  · rename_i me hone
    rw [hone, wp_ite, p.isUnit_flag htype]
    refine ⟨fun hunit => ?_, fun _ => hmixing _⟩
    rw [wp_bind, wp_read]
    refine ⟨nofun, fun env henv => ?_⟩
    obtain rfl : env = { buffer := none, internalBufferPtr := none } :=
      (Option.some.inj henv).symm.trans hfresh
    rw [wp_bind, wp_free, wp_bind, wp_setEnv]
    have hrelease : ∀ ptr,
      (e.release ptr).env n i = { buffer := none, internalBufferPtr := none } :=
      fun _ => hfresh
    rw [hrelease]
    cases hsrc : me.src with
    | none =>
        exact .bias hsrc hunit (congrArg SignalEnv.buffer (hput _ _))
          (congrArg SignalEnv.internalBufferPtr (hput _ _))
    | some src =>
        dsimp only
        unfold loadOutput
        rw [wp_bind, wp_read]
        refine ⟨fun _ => trivial, fun output houtput => ?_⟩
        rw [wp_setEnv, hput]
        obtain ⟨_, -, houtput⟩ := Option.bind_eq_some_iff.mp houtput
        obtain ⟨_, -, rfl⟩ := Option.map_eq_some_iff.mp houtput
        exact .wire hsrc hunit (congrArg SignalEnv.buffer (hput _ _))
          (congrArg SignalEnv.internalBufferPtr (hput _ _))
  · exact hmixing _

/-- How the node reads port `i`. -/
theorem ksiNodeGetInput_ports {input : InputPort} (hi : node.inputs[i]? = some input) {F : Nat} :
    ksiNodeGetInput (c.ports m n node) F i f =
      let buffer := (c.version.env n i).internalBufferPtr.map m.samples
      if isDirty (m.types (inputTypes n node) i) then buffer.map fun b => b f
      else match buffer, input.entries with
        | some b, _ => some (b (F - 1))
        | none, me :: _ => some me.gain
        | none, [] => some 0 := by
  have hport : (c.ports m n node).inputs[i]? = some
      { type := m.types (inputTypes n node) i
        internalBufferPtr := (c.version.env n i).internalBufferPtr.map m.samples
        mixer := input.entries } := by
    unfold Cycle.ports
    rw [List.getElem?_mapIdx, hi]
    rfl
  unfold ksiNodeGetInput
  rw [hport]
  rfl

/-- The port is read as its sum. -/
theorem Cycle.Leaves.read {input : InputPort} (hi : node.inputs[i]? = some input) (p : Integral)
    (htype : m.types (inputTypes n node) i &&& ksiNodePortTypeMask = p.flag)
    (hset : c.Refreshed p n i input.entries) (hwired : c.Wired m input.entries)
    (h : c.Leaves n node i input.entries m m') (hf : f < c.framesPerBuffer) :
    ksiNodeGetInput (c.ports m' n node) c.framesPerBuffer i f =
    some (c.mix p m input.entries f) := by
  have hsignal := p.not_event htype
  rw [ksiNodeGetInput_ports hi]
  unfold Cycle.Leaves at h
  simp only [hsignal, Bool.false_eq_true, if_false] at h
  generalize input.entries = entries at *
  cases hset with
  | unused hptr =>
      have hclean : isDirty (m'.types (inputTypes n node) i) = false := by
        split at h
        · subst h
          simp
        · subst h
          simp
      simp [hclean, hptr, Cycle.mix]
  | @wire me src hsrc hunit hbuf hptr =>
      rw [hbuf] at h
      subst h
      obtain ⟨o, ho⟩ := Option.isSome_iff_exists.mp
        (hwired me (List.mem_cons_self ..) (by rw [hsrc]; rfl))
      have hdirty := dirty_some ho
      -- the pointer is to the samples of the source
      have hsamples : (c.version.outputBuffer src me.srcPort.toNat).map m.samples =
        some o.buffer := by
        unfold Cycle.source at ho
        rw [hsrc, Option.bind_some] at ho
        obtain ⟨_, -, ho⟩ := Option.bind_eq_some_iff.mp ho
        obtain ⟨_, -, ho⟩ := Option.bind_eq_some_iff.mp ho
        obtain ⟨b, hb, rfl⟩ := Option.map_eq_some_iff.mp ho
        rw [hb]
        rfl
      have hmix : c.mix p m [me] f = o.visible c.framesPerBuffer f := by
        simp [Cycle.mix, Cycle.term, ho, p.weigh_unit hunit]
      have hmark : ∀ ref t, (m.mark ref i t).samples = m.samples := fun _ _ => rfl
      rw [hmix, hptr, hmark, hsamples, Memory.mark_self]
      simp only [List.head?_cons, Option.any_some, isDirty_withIoBit, hdirty]
      unfold OutputBuffer.visible
      cases isDirty o.type <;> rfl
  | @bias me hsrc hunit hbuf hptr =>
      have hclean := dirty_none (c := c) (m := m) hsrc
      rw [hbuf] at h
      subst h
      simp [hclean, hptr, Cycle.mix, Cycle.term, source_none hsrc]
  | @own buf _ hbuf hptr =>
      rw [hbuf] at h
      subst h
      have hsamples : ∀ t w, ((m.put buf w).mark (inputTypes n node) i t).samples buf = w :=
        fun _ _ =>
        (Memory.put_samples buf).trans (if_pos rfl)
      rw [hptr, Option.map_some, hsamples, Memory.mark_self, isDirty_withIoBit]
      unfold Cycle.summed
      cases hany : entries.any (c.dirty m) with
      | true => simp [hf, passes_mix p htype]
      | false =>
          have hclean : ∀ me ∈ entries, c.dirty m me = false := fun me hme =>
            Bool.eq_false_iff.mpr fun h => absurd hany (by
              rw [List.any_eq_true.mpr ⟨me, hme, h⟩]
              nofun)
          have hnone : entries.filter (c.dirty m) = [] :=
            List.filter_eq_nil_iff.mpr fun me hme => Bool.eq_false_iff.mp (hclean me hme)
          have hmix := passes_mix (c := c) (m := m) (f := f) (k := c.sounds n) p htype entries
          rw [hnone] at hmix
          have hcache : c.framesPerBuffer - 1 = c.cache := rfl
          simp only [Bool.false_eq_true, if_false, false_and, hcache, Function.update_self]
          exact congrArg some hmix

/-! ### All ports -/

/-- The wires of a node lead somewhere, and no buffer that a port mixes into is used for
anything else. -/
structure Mixable (c : Cycle) (m : Memory) (n : NodePtr) (node : KsiNode) : Prop where
  wired : ∀ (i : Nat) input, node.inputs[i]? = some input →
    (m.types (inputTypes n node) i).isEvent = false → c.Wired m input.entries
  apart : ∀ (i j : Nat) (input : InputPort) b, i < node.inputs.length → c.MixesInto m n node i b →
    node.inputs[j]? = some input → c.Apart b input.entries
  own : ∀ (i j : Nat) b, i < node.inputs.length → j < node.inputs.length →
    c.MixesInto m n node i b →
    c.MixesInto m n node j b → i = j

/-- In an engine whose book is in order a buffer has one place. -/
theorem mixable_of_balanced {e : Engine} (hbal : Balanced e) (hversion : c.version = e.toVersion)
    (hnode : e.graph.heap n = some node)
    (htypes : ∀ (j : Nat) input, node.inputs[j]? = some input →
      (m.types (inputTypes n node) j).isEvent = input.type.isEvent)
    (hwired : ∀ (j : Nat) input, node.inputs[j]? = some input →
      (m.types (inputTypes n node) j).isEvent = false → c.Wired m input.entries)
    (hsources : ∀ input ∈ node.inputs, ∀ me ∈ input.entries, ∀ src, me.src = some src →
      ∃ snode, e.graph.heap src = some snode ∧ snode.isNormal = true ∧
        me.srcPort.toNat < snode.outputs.length) : Mixable c m n node := by
  have howns : ∀ (j : Nat) b, j < node.inputs.length → c.MixesInto m n node j b →
      e.Owns (.input n j) b ∧ ¬ False := by
    rintro j b hj ⟨hsignal, hb⟩
    have hinput : node.inputs[j]? = some node.inputs[j] := List.getElem?_eq_getElem hj
    rw [hversion] at hb
    refine ⟨⟨node, hnode, ⟨node.inputs[j].type, by simp [hinput], ?_⟩, hb⟩, not_false⟩
    rw [← htypes j _ hinput]
    exact hsignal
  refine ⟨hwired, fun i j input b hi hb hinput me hme src hsrc hout => ?_,
    fun i j b hi hj hb hb' => ?_⟩
  · obtain ⟨snode, hsnode, hnormal, hport⟩ :=
      hsources input (List.mem_of_getElem? hinput) me hme src hsrc
    rw [hversion] at hout
    have hsource : e.Owns (.output src me.srcPort.toNat) b := ⟨snode, hsnode, hnormal, hport, hout⟩
    exact absurd (hbal.ledger.place _ _ b (howns i b hi hb) ⟨hsource, not_false⟩) nofun
  · cases hbal.ledger.place _ _ b (howns i b hi hb) (howns j b hj hb')
    rfl

/-- The ports below `k` have been mixed. -/
structure MixedBelow (c : Cycle) (m m' : Memory) (n : NodePtr) (node : KsiNode)
    (k : Nat) : Prop where
  outputs : ∀ src node' j, m'.types (outputTypes src node') j = m.types (outputTypes src node') j
  rest : ∀ j, k ≤ j → m'.types (inputTypes n node) j = m.types (inputTypes n node) j
  samples : ∀ b, (∀ j < node.inputs.length, ¬ c.MixesInto m n node j b) → m'.samples b = m.samples b
  read : ∀ (i : Nat) input p, i < k → node.inputs[i]? = some input →
    m.types (inputTypes n node) i &&& ksiNodePortTypeMask = Integral.flag p →
      c.Refreshed p n i input.entries → ∀ f < c.framesPerBuffer,
        ksiNodeGetInput (c.ports m' n node) c.framesPerBuffer i f = some (c.mix p m input.entries f)

/-- No source is a place where a port mixes. -/
theorem MixedBelow.source {kk : Nat} {input : InputPort} (hm : Mixable c m n node)
    (h : MixedBelow c m m' n node kk) (hi : node.inputs[i]? = some input)
    (hme : me ∈ input.entries) : c.source m' me = c.source m me :=
  source_congr h.outputs fun src b hsrc hb => h.samples b fun j hj hmix =>
    hm.apart j i input b hj hmix hi me hme src hsrc hb

theorem mix_congr (p : Integral) (hsource : ∀ me ∈ entries, c.source m' me = c.source m me) :
    c.mix p m' entries f = c.mix p m entries f := by
  unfold Cycle.mix
  rw [List.map_congr_left fun me hme => ?_]
  unfold Cycle.term
  rw [hsource me hme]

theorem wired_congr (hsource : ∀ me ∈ entries, c.source m' me = c.source m me)
    (hwired : c.Wired m entries) : c.Wired m' entries := fun me hme hsrc => by
  rw [hsource me hme]
  exact hwired me hme hsrc

/-- What a mixed port points to is no place where another one mixes. -/
theorem Cycle.Refreshed.apart {p : Integral} {input : InputPort} {b : BufPtr}
    (hm : Mixable c m n node) (hset : c.Refreshed p n i input.entries)
    (hi : node.inputs[i]? = some input) (hsignal : (m.types (inputTypes n node) i).isEvent = false)
    (hb : (c.version.env n i).internalBufferPtr = some b) (hj : j < node.inputs.length)
    (hne : i ≠ j) : ¬ c.MixesInto m n node j b := by
  intro hmix
  have hwires : ∀ me ∈ input.entries, ∀ src, me.src = some src →
      c.version.outputBuffer src me.srcPort.toNat ≠ some b := hm.apart j i input b hj hmix hi
  generalize hentries : input.entries = entries at *
  cases hset with
  | unused hptr => exact absurd (hptr.symm.trans hb) nofun
  | wire hsrc _ _ hptr => exact hwires _ (List.mem_cons_self ..) _ hsrc (hptr.symm.trans hb)
  | bias _ _ _ hptr => exact absurd (hptr.symm.trans hb) nofun
  | own hbuf hptr =>
      obtain rfl := Option.some.inj (hptr.symm.trans hb)
      have hlt : i < node.inputs.length := (List.getElem?_eq_some_iff.mp hi).1
      exact hne (hm.own i j _ hlt hj ⟨hsignal, hbuf⟩ hmix)

/-- One more port. -/
theorem MixedBelow.step {kk : Nat} {m₁ m₂ : Memory} {input : InputPort} (hm : Mixable c m n node)
    (h : MixedBelow c m m₁ n node kk) (hk : node.inputs[kk]? = some input)
    (hl : c.Leaves n node kk input.entries m₁ m₂) : MixedBelow c m m₂ n node (kk + 1) := by
  obtain ⟨htypes, hsamples⟩ := hl.only
  have hlt : kk < node.inputs.length := (List.getElem?_eq_some_iff.mp hk).1
  have hold : m₁.types (inputTypes n node) kk = m.types (inputTypes n node) kk :=
    h.rest kk (Nat.le_refl _)
  have hinto : ∀ b, c.MixesInto m₁ n node kk b ↔ c.MixesInto m n node kk b := fun b => by
    unfold Cycle.MixesInto
    rw [hold]
  constructor
  case outputs =>
    intro src node' j
    rw [htypes _ j fun heq => inputTypes_ne_outputTypes heq.1.symm]
    exact h.outputs src node' j
  case rest =>
    intro j hj
    rw [htypes _ j fun heq => by omega]
    exact h.rest j (by omega)
  case samples =>
    intro b hb
    rw [hsamples b (mt (hinto b).mp (hb kk hlt))]
    exact h.samples b hb
  case read =>
    intro i input' p hi hinput htype hset f hf
    have hsource : ∀ me ∈ input'.entries, c.source m₁ me = c.source m me := fun me =>
      h.source hm hinput
    rcases Nat.lt_succ_iff_lt_or_eq.mp hi with hlt' | rfl
    · -- mixing the port leaves what the earlier ones point to
      rw [← h.read i input' p hlt' hinput htype hset f hf, ksiNodeGetInput_ports hinput,
        ksiNodeGetInput_ports hinput, htypes _ i fun heq => Nat.ne_of_lt hlt' heq.2]
      have hptr : (c.version.env n i).internalBufferPtr.map m₂.samples =
          (c.version.env n i).internalBufferPtr.map m₁.samples := Option.map_congr fun b hb =>
        hsamples b (mt (hinto b).mp
          (hset.apart hm hinput (p.not_event htype) hb hlt (Nat.ne_of_lt hlt')))
      rw [hptr]
    · obtain rfl := Option.some.inj (hk.symm.trans hinput)
      have hwired := hm.wired i input hk (p.not_event htype)
      rw [← mix_congr p hsource]
      exact hl.read hinput p (by rw [hold]; exact htype) hset (wired_congr hsource hwired) hf

section Port

variable {kk : Nat} (hm : Mixable c m n node) (h : MixedBelow c m m' n node kk)
  (hk : kk < node.inputs.length)
include hm h hk

theorem MixedBelow.wired (hsignal : (m'.types (inputTypes n node) kk).isEvent = false) :
    c.Wired m' node.inputs[kk].entries := by
  have hinput : node.inputs[kk]? = some node.inputs[kk] := List.getElem?_eq_getElem hk
  rw [h.rest kk (Nat.le_refl _)] at hsignal
  exact wired_congr (fun me hme => h.source hm hinput hme) (hm.wired kk _ hinput hsignal)

theorem MixedBelow.apart (b : BufPtr) (hb : c.MixesInto m' n node kk b) :
    c.Apart b node.inputs[kk].entries := by
  refine hm.apart kk kk _ b hk ?_ (List.getElem?_eq_getElem hk)
  rwa [Cycle.MixesInto, h.rest kk (Nat.le_refl _)] at hb

theorem MixedBelow.mixPort :
    wp d (c.mixPort n node kk) m' (fun _ m'' => MixedBelow c m m'' n node (kk + 1)) E := by
  have hinput : node.inputs[kk]? = some node.inputs[kk] := List.getElem?_eq_getElem hk
  exact wp_mono (mixPort_wp hinput (h.wired hm hk) (h.apart hm hk))
    (fun _ m₂ hl => h.step hm hinput hl) fun _ _ h => h

end Port

/-- The mixing step of a worker. -/
theorem mixPorts_wp (hm : Mixable c m n node) : wp d (c.mixPorts n node) m
    (fun _ m' => MixedBelow c m m' n node node.inputs.length) E :=
  wp_forRange (fun kk m' => MixedBelow c m m' n node kk) (fun _ _ hk h₁ => h₁.mixPort hm hk)
    ⟨fun _ _ _ => rfl, fun _ _ => rfl, fun _ _ => rfl, nofun⟩

/-- **After the mixing step the node reads of an integer port the sum of its entries, at
every frame**, and the sources are what they were. -/
theorem getInput_eq_mix (p : Integral) {input : InputPort} (hm : Mixable c m n node)
    (hi : node.inputs[i]? = some input)
    (htype : m.types (inputTypes n node) i &&& ksiNodePortTypeMask = p.flag)
    (hset : c.Refreshed p n i input.entries) :
    ∃ m', c.mixPorts n node m = some (.ok (), m') ∧
      (∀ me ∈ input.entries, c.source m' me = c.source m me) ∧
      ∀ f < c.framesPerBuffer, ksiNodeGetInput (c.ports m' n node) c.framesPerBuffer i f =
        some (c.mix p m input.entries f) := by
  obtain ⟨r, m', hrun, hok, -⟩ := exists_of_wp (mixPorts_wp (d := False) (E := fun _ _ => False) hm)
  cases r with
  | error e => exact e.elim
  | ok a =>
      have hbelow := hok () rfl
      have hlt : i < node.inputs.length := (List.getElem?_eq_some_iff.mp hi).1
      exact ⟨m', hrun, fun me hme => hbelow.source hm hi hme,
        hbelow.read i input p hlt hi htype hset⟩

/-- A port with a wire from node 0 and a bias. -/
def wireAndBiasPort : InputPort where
  type := ksiNodePortTypeInt32
  entries := [{ src := some 0, srcPort := 0, gain := 3 }, { src := none, srcPort := 0, gain := 5 }]

def wireAndBias : KsiNode where
  depNum := 1
  successors := []
  id := 1
  type := 0x3000
  inputs := [wireAndBiasPort]
  outputs := []

/-- The node is node 1, and node 0 its source. -/
def wireAndBiasCycle : Cycle where
  version :=
    { graph :=
        { nodes := ksiVecInit NodePtr 2
          finalNode := none
          heap := fun p => if p = 0 then some
              { depNum := 0, successors := [1], id := 0, type := 0x3000, inputs := [],
                outputs := [ksiNodePortTypeInt32] }
            else if p = 1 then some wireAndBias
            else none
          nextNode := 2 }
      env := fun _ _ => { buffer := some 1, internalBufferPtr := some 1 }
      outputBuffer := fun _ _ => some 0 }
  framesPerBuffer := 4
  sounds := fun _ => silence

/-- The output of node 0 is a ramp, and dirty; there is garbage in the other buffers. -/
def rampMemory : Memory where
  types := fun ref _ => if ref = .ownOutputs 0 then ksiNodePortIOSetDirty ksiNodePortTypeInt32
    else ksiNodePortTypeInt32
  samples := fun b i => if b = 0 then BitVec.ofNat 32 (i + 1) else 77

theorem getInput_eq_mix_ramp :
    wireAndBiasCycle.mix .int32 rampMemory wireAndBiasPort.entries 2 = 14 ∧
    ∃ m', wireAndBiasCycle.mixPorts 1 wireAndBias rampMemory = some (.ok (), m') ∧
      (∀ me ∈ wireAndBiasPort.entries,
        wireAndBiasCycle.source m' me = wireAndBiasCycle.source rampMemory me) ∧
      ∀ f < 4, ksiNodeGetInput (wireAndBiasCycle.ports m' 1 wireAndBias) 4 0 f =
        some (wireAndBiasCycle.mix .int32 rampMemory wireAndBiasPort.entries f) := by
  have hport : ∀ (j : Nat) (input : InputPort), wireAndBias.inputs[j]? = some input →
      input = wireAndBiasPort := by
    rintro (_ | j) input ⟨⟩
    rfl
  have hmixable : Mixable wireAndBiasCycle rampMemory 1 wireAndBias := by
    constructor
    case wired =>
      intro j input hj _
      obtain rfl := hport j input hj
      unfold Cycle.Wired
      decide
    case apart =>
      rintro i j input b - ⟨-, hb⟩ -
      obtain rfl : 1 = b := Option.some.inj hb
      intro me _ src _ h
      exact absurd (Option.some.inj h) (by decide)
    case own =>
      intro i j b hi hj _ _
      have hlen : wireAndBias.inputs.length = 1 := rfl
      omega
  have hinput : wireAndBias.inputs[0]? = some wireAndBiasPort := rfl
  exact ⟨by decide, getInput_eq_mix .int32 hmixable hinput rfl (.own rfl rfl)⟩

/-! ### The sum in a local value

Under the same conditions the mixer of Worker.lean computes the same. -/

theorem wp_sourceBuffer_of {src : NodePtr} {o : OutputBuffer} {Q : (Nat → KsiData) → Memory → Prop}
    (hsrc : me.src = some src) (ho : c.source m me = some o) :
    wp d (c.sourceBuffer src me.srcPort) m Q E ↔ Q o.buffer m := wp_of_ok (source_some hsrc ho).2

theorem mixClean_of (entries : List Entry) (hwired : c.Wired m entries) :
    ∀ {last : KsiData} {dirty : Bool},
    wp d (c.mixClean k type entries last dirty) m (fun r m' => m' = m ∧
      r = ((entries.filter fun me => !c.dirty m me).foldl (c.blend k type m c.cache) last,
        dirty || entries.any (c.dirty m))) E := by
  induction entries with
  | nil =>
      intro last dirty
      exact ⟨rfl, by simp⟩
  | cons me rest ih =>
      intro last dirty
      obtain ⟨hme, hrest⟩ := List.forall_mem_cons.mp hwired
      replace ih := fun last dirty => @ih hrest last dirty
      unfold Cycle.mixClean
      cases hsrc : me.src with
      | none =>
          have hnone := source_none (c := c) (m := m) hsrc
          have hclean := dirty_none (c := c) (m := m) hsrc
          refine wp_mono (ih _ dirty) (fun r m' h => ⟨h.1, ?_⟩) fun _ _ h => h
          rw [h.2]
          simp [hclean, Cycle.blend, hnone]
      | some src =>
          obtain ⟨o, ho⟩ := Option.isSome_iff_exists.mp (hme (by rw [hsrc]; rfl))
          have hdirty := dirty_some ho
          dsimp only
          rw [wp_bind, wp_sourceType_of hsrc ho, wp_ite]
          refine ⟨fun h => ?_, fun h => ?_⟩
          · refine wp_mono (ih last true) (fun r m' h' => ⟨h'.1, ?_⟩) fun _ _ h => h
            rw [h'.2]
            simp [hdirty, h]
          · have hclean : c.dirty m me = false := hdirty.trans (Bool.eq_false_iff.mpr h)
            rw [wp_bind, wp_sourceBuffer_of hsrc ho]
            refine wp_mono (ih _ dirty) (fun r m' h' => ⟨h'.1, ?_⟩) fun _ _ h => h
            have hcache : c.framesPerBuffer - 1 = c.cache := rfl
            rw [h'.2, hcache]
            simp [hclean, Cycle.blend, ho, visible_cache]

theorem mixDirty_of (entries : List Entry) (hwired : c.Wired m entries)
    (hapart : c.Apart buf entries) (w : Nat → KsiData) : ∀ {v : Nat → KsiData},
    wp d (c.mixDirty k type entries v) (m.put buf w) (fun r m' => m' = m.put buf w ∧ r = fun f =>
      if f < c.framesPerBuffer then (entries.filter (c.dirty m)).foldl (c.blend k type m f) (v f)
      else v f) E := by
  induction entries with
  | nil =>
      intro v
      exact ⟨rfl, by simp⟩
  | cons me rest ih =>
      intro v
      obtain ⟨hme, hrest⟩ := List.forall_mem_cons.mp hwired
      obtain ⟨-, haparts⟩ := List.forall_mem_cons.mp hapart
      replace ih := fun v => ih hrest haparts (v := v)
      unfold Cycle.mixDirty
      cases hsrc : me.src with
      | none =>
          have hclean := dirty_none (c := c) (m := m) hsrc
          refine wp_mono (ih v) (fun r m' h => ⟨h.1, ?_⟩) fun _ _ h => h
          rw [h.2, List.filter_cons, hclean]
          rfl
      | some src =>
          obtain ⟨o, ho⟩ := Option.isSome_iff_exists.mp (hme (by rw [hsrc]; rfl))
          have hput := (source_put hapart (v := w) (List.mem_cons_self ..)).trans ho
          have hdirty := dirty_some ho
          dsimp only
          rw [wp_bind, wp_sourceType_of hsrc hput, wp_ite]
          refine ⟨fun h => ?_, fun h => ?_⟩
          · rw [wp_bind, wp_sourceBuffer_of hsrc hput]
            refine wp_mono (ih _) (fun r m' h' => ⟨h'.1, ?_⟩) fun _ _ h => h
            rw [h'.2]
            funext f
            by_cases hf : f < c.framesPerBuffer
            · simp [hf, hdirty, h, Cycle.blend, ho, OutputBuffer.visible]
            · simp [hf]
          · have hclean : c.dirty m me = false := hdirty.trans (Bool.eq_false_iff.mpr h)
            refine wp_mono (ih v) (fun r m' h => ⟨h.1, ?_⟩) fun _ _ h => h
            rw [h.2, List.filter_cons, hclean]
            rfl

theorem mixBuffer_of {ref : TypesRef} (hwired : c.Wired m entries) (hapart : c.Apart buf entries) :
    wp d (c.mixBuffer k type buf entries ref i) m (fun _ m' =>
      m' = (m.put buf (c.summed k type m buf entries)).mark ref i
        (withIoBit (m.types ref i) (entries.any (c.dirty m)))) E := by
  unfold Cycle.mixBuffer
  rw [wp_bind]
  refine wp_mono (mixClean_of entries hwired) ?_ fun _ _ h => h
  rintro mixed m₁ ⟨rfl, rfl⟩
  rw [Bool.false_or, wp_bind]
  show wp d _ (m₁.put buf (Function.update (m₁.samples buf) c.cache (c.cleanSum k type m₁ entries)))
    _ E
  rw [wp_bind, wp_when]
  constructor
  · intro hany
    rw [wp_bind, wp_read]
    refine ⟨nofun, fun old hold => ?_⟩
    obtain rfl := Option.some.inj hold
    rw [wp_bind]
    refine wp_mono (mixDirty_of entries hwired hapart _) ?_ fun _ _ h => h
    rintro sum m₂ ⟨rfl, rfl⟩
    rw [wp_storeSamples]
    refine wp_storeSummed (funext fun f => ?_)
    rw [Memory.put_samples, if_pos rfl]
    unfold Cycle.summed
    by_cases hf : f < c.framesPerBuffer
    · rw [if_pos hf, if_pos hf, if_pos ⟨hany, hf⟩]
      rfl
    · rw [if_neg hf, if_neg hf, if_neg fun h => hf h.2]
  · intro hany
    refine wp_storeSummed (funext fun f => ?_)
    unfold Cycle.summed
    rw [if_neg fun h => hany h.1]

/-- A worker's program that ends, by its end. -/
theorem run_of_wp {x : Work Unit} {m₁ : Memory}
    (hx : wp False x m (fun _ m' => m' = m₁) fun _ _ => False) : x m = some (.ok (), m₁) := by
  obtain ⟨r, m', hrun, hok, -⟩ := exists_of_wp hx
  cases r with
  | error e => exact e.elim
  | ok a => rw [hrun, hok a rfl]

/-- The mixer of a port, as it is here and as it is there. -/
theorem mixPort_eq {input : InputPort} (hi : node.inputs[i]? = some input)
    (hwired : (m.types (inputTypes n node) i).isEvent = false → c.Wired m input.entries)
    (hapart : ∀ b, c.MixesInto m n node i b → c.Apart b input.entries) :
    c.mixPort n node i m = c.mixInput n node i m := by
  have hread : (Prog.read (fun _ => node.inputs[i]?) : Work InputPort) m = some (.ok input, m) := by
    unfold Prog.read
    rw [hi]
    rfl
  unfold Cycle.mixPort Cycle.mixInput
  show Prog.bind _ _ m = Prog.bind _ _ m
  unfold Prog.bind
  rw [hread]
  show (if _ then _ else _ : Work Unit) m = (if _ then _ else _ : Work Unit) m
  split
  · rfl
  · rename_i hsignal
    replace hsignal := Bool.eq_false_iff.mpr hsignal
    cases hbuf : (c.version.env n i).buffer with
    | none => rfl
    | some buf =>
        replace hapart := hapart buf ⟨hsignal, hbuf⟩
        exact (run_of_wp (mixInto_wp (hwired hsignal) hapart)).trans
          (run_of_wp (mixBuffer_of (hwired hsignal) hapart)).symm

/-- **The loop in place is the mixer of Worker.lean.** -/
theorem mixPorts_eq (hm : Mixable c m n node) : c.mixPorts n node m = c.mixInputs n node m := by
  refine forRange_congr (fun kk m' => MixedBelow c m m' n node kk) (fun kk m₁ hk h₁ => ?_)
    (fun kk m₁ hk h₁ => ?_) ⟨fun _ _ _ => rfl, fun _ _ => rfl, fun _ _ => rfl, nofun⟩
  · exact mixPort_eq (List.getElem?_eq_getElem hk) (h₁.wired hm hk) (h₁.apart hm hk)
  · exact h₁.mixPort hm hk

end Ksi.Audio
