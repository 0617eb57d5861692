/-
When loading a sequence of notes is safe.

Nothing in the loader looks at the numbers of a file, so a load is defined exactly if the
numbers of each line that it comes to, which is each before the first that it cannot read,
keep every intermediate result within 32 bits and divide by no zero.  Then the tree has one
node for each line with the exact time, or the load is refused.
-/
import Ksi.Resource
import Ksi.Proofs.RBTree.Attach

namespace Ksi.Resource

open Dag (KsiError)
open Dag.KsiError Ksi.RBTree Cmd Prog

/-! ### The arithmetic -/

section

variable {x y z : Int}

theorem int32_eq_some : int32 x = some z ↔ InInt32 x ∧ x = z := by
  unfold int32
  by_cases h : InInt32 x <;> simp [h]

theorem mul32_eq_some : mul32 x y = some z ↔ InInt32 (x * y) ∧ x * y = z := int32_eq_some

theorem add32_eq_some : add32 x y = some z ↔ InInt32 (x + y) ∧ x + y = z := int32_eq_some

theorem div32_eq_some : div32 x y = some z ↔ y ≠ 0 ∧ InInt32 (x.tdiv y) ∧ x.tdiv y = z := by
  unfold div32
  by_cases h : y = 0
  · simp [h]
  · rw [if_neg h, int32_eq_some]
    simp [h]

theorem mod32_eq_some : mod32 x y = some z ↔ y ≠ 0 ∧ InInt32 (x.tdiv y) ∧ x.tmod y = z := by
  unfold mod32
  rw [Option.map_eq_some_iff]
  constructor
  · rintro ⟨q, hq, rfl⟩
    obtain ⟨hy, hin, -⟩ := div32_eq_some.mp hq
    exact ⟨hy, hin, rfl⟩
  · rintro ⟨hy, hin, rfl⟩
    exact ⟨_, div32_eq_some.mpr ⟨hy, hin, rfl⟩, rfl⟩

/-- A quotient is no greater than what is divided. -/
theorem inInt32_tdiv (hx : -2 ^ 31 < x) (hx' : x < 2 ^ 31) : InInt32 (x.tdiv y) := by
  have habs := Int.natAbs_tdiv_le_natAbs x y
  unfold InInt32
  omega

end

/-- The frames of a bar. -/
def fpb (framesPerSecond : Int) (barpm : Int16) : Int := (framesPerSecond * 60).tdiv barpm.toInt

/-- The time of a note, computed exactly. -/
def exactTime (framesPerSecond : Int) (barpm : Int16) (f : Fields) : Int :=
  f.bar.toInt.tdiv barpm.toInt * framesPerSecond * 60 +
    f.bar.toInt.tmod barpm.toInt * fpb framesPerSecond barpm +
    (fpb framesPerSecond barpm * f.num.toInt).tdiv f.div.toInt

/-- The numbers of a line with which nothing is divided by zero and nothing overflows. -/
structure Fits (framesPerSecond : Int) (barpm : Int16) (f : Fields) : Prop where
  beatsOfBar : barpm.toInt ≠ 0
  division : f.div.toInt ≠ 0
  minute : InInt32 (framesPerSecond * 60)
  seconds : InInt32 (f.bar.toInt.tdiv barpm.toInt * framesPerSecond)
  bars : InInt32 (f.bar.toInt.tdiv barpm.toInt * framesPerSecond * 60)
  beats : InInt32 (f.bar.toInt.tmod barpm.toInt * fpb framesPerSecond barpm)
  parts : InInt32 (fpb framesPerSecond barpm * f.num.toInt)
  part : InInt32 ((fpb framesPerSecond barpm * f.num.toInt).tdiv f.div.toInt)
  sum : InInt32 (f.bar.toInt.tdiv barpm.toInt * framesPerSecond * 60 +
    f.bar.toInt.tmod barpm.toInt * fpb framesPerSecond barpm)
  time : InInt32 (exactTime framesPerSecond barpm f)

variable {framesPerSecond : Int} {barpm : Int16} {f : Fields} {m : Mallocs}

/-- **The time of a note** is defined exactly if its numbers fit, and it is exact then. -/
theorem timeOf_eq_some (hfps : 0 < framesPerSecond) {x : Int} :
    timeOf framesPerSecond barpm f = some x ↔
      Fits framesPerSecond barpm f ∧ exactTime framesPerSecond barpm f = x := by
  have hbar : InInt32 (f.bar.toInt.tdiv barpm.toInt) :=
    inInt32_tdiv (by have := f.bar.le_toInt; omega) (by have := f.bar.toInt_lt; omega)
  have hfpb : InInt32 (framesPerSecond * 60) → InInt32 (fpb framesPerSecond barpm) := by
    intro hin
    unfold InInt32 at hin
    exact inInt32_tdiv (by omega) hin.2
  unfold timeOf
  simp only [Option.bind_eq_bind, Option.bind_eq_some_iff, mul32_eq_some, add32_eq_some,
    div32_eq_some, mod32_eq_some]
  constructor
  · rintro ⟨_, ⟨hminute, rfl⟩, _, ⟨hbarpm, -, rfl⟩, _, ⟨-, -, rfl⟩, _, ⟨hseconds, rfl⟩, _,
      ⟨hbars, rfl⟩, _, ⟨-, -, rfl⟩, _, ⟨hbeats, rfl⟩, _, ⟨hparts, rfl⟩, _, ⟨hdiv, hpart, rfl⟩, _,
      ⟨hsum, rfl⟩, htime, rfl⟩
    exact ⟨⟨hbarpm, hdiv, hminute, hseconds, hbars, hbeats, hparts, hpart, hsum, htime⟩, rfl⟩
  · rintro ⟨h, rfl⟩
    exact ⟨_, ⟨h.minute, rfl⟩, _, ⟨h.beatsOfBar, hfpb h.minute, rfl⟩, _,
      ⟨h.beatsOfBar, hbar, rfl⟩, _,
      ⟨h.seconds, rfl⟩, _, ⟨h.bars, rfl⟩, _, ⟨h.beatsOfBar, hbar, rfl⟩, _, ⟨h.beats, rfl⟩, _,
      ⟨h.parts, rfl⟩, _, ⟨h.division, h.part, rfl⟩, _, ⟨h.sum, rfl⟩, h.time, rfl⟩

/-! ### The lines -/

/-- What is read before the first line that cannot be. -/
def fieldsRead : List (List Char) → List Fields
  | [] => []
  | line :: rest =>
      match scanFields line with
      | none => []
      | some f => f :: fieldsRead rest

/-- The nodes of the lines from the `i`-th on. -/
def nodesFrom (m : Mallocs) (framesPerSecond : Int) (barpm : Int16) : Nat → List Fields →
    List (Ptr × KsiRBNode)
  | _, [] => []
  | i, f :: fs => m.node i (exactTime framesPerSecond barpm f) f ::
      nodesFrom m framesPerSecond barpm (i + 1) fs

/-- The nodes of the lines before the `i`-th. -/
def Before (m : Mallocs) (i : Nat) (nodes : List (Ptr × KsiRBNode)) : Prop :=
  nodes.length = i ∧ ∀ p ∈ nodes.map Prod.fst, ∃ j < i, p = m.note j

theorem Before.snoc {i : Nat} {nodes : List (Ptr × KsiRBNode)} (h : Before m i nodes) (time : Int)
    (f : Fields) : Before m (i + 1) (nodes ++ [m.node i time f]) := by
  refine ⟨by rw [List.length_append, h.1]; rfl, fun p hp => ?_⟩
  rw [List.map_append] at hp
  rcases List.mem_append.mp hp with hp | hp
  · obtain ⟨j, hj, rfl⟩ := h.2 p hp
    exact ⟨j, by omega, rfl⟩
  · exact ⟨i, by omega, List.mem_singleton.mp hp⟩

/-- One line: its time, its node, and the lines after it. -/
theorem loadNotes_cons {fuel i : Nat} {line : List Char} {rest : List (List Char)} {s : KsiRBTree}
    (hscan : scanFields line = some f) :
    loadNotes fuel m framesPerSecond barpm i (line :: rest) s =
      (timeOf framesPerSecond barpm f).bind fun time =>
        Prog.bind (malloc (m.node i time f).1 (m.node i time f).2 >>= fun _ =>
            ksiRBTreeAttach fuel (some (m.node i time f).1))
          (fun _ => loadNotes fuel m framesPerSecond barpm (i + 1) rest) s := by
  conv_lhs => rw [loadNotes, hscan]
  show Prog.bind (Prog.read _) _ s = _
  unfold Prog.bind Prog.read
  cases timeOf framesPerSecond barpm f <;> rfl

/-- The loop over the lines: if the numbers that it comes to fit, it attaches a node for each
line, or it refuses one; and if they do not, it has no result. -/
theorem loadNotes_run (barpm : Int16) (hfps : 0 < framesPerSecond) {fuel : Nat}
    (lines : List (List Char)) {i : Nat} {s : KsiRBTree} {t : BinaryTree Ptr}
    {nodes : List (Ptr × KsiRBNode)} (h : Holds s m.sentinel t nodes) (hbefore : Before m i nodes)
    (hfuel : i + lines.length ≤ fuel) :
    ((∀ f ∈ fieldsRead lines, Fits framesPerSecond barpm f) →
      (∃ fs s' t', loadNotes fuel m framesPerSecond barpm i lines s = some (.ok (), s') ∧
        lines.map scanFields = fs.map some ∧
        Holds s' m.sentinel t' (nodes ++ nodesFrom m framesPerSecond barpm i fs)) ∨
      ∃ s', loadNotes fuel m framesPerSecond barpm i lines s = some (.error ksiErrorSyntax, s')) ∧
    ((¬ ∀ f ∈ fieldsRead lines, Fits framesPerSecond barpm f) →
      loadNotes fuel m framesPerSecond barpm i lines s = none) := by
  induction lines generalizing i s t nodes with
  | nil =>
      refine ⟨fun _ => .inl ⟨[], s, t, rfl, rfl, by rw [nodesFrom, List.append_nil]; exact h⟩,
        fun hnot => absurd ?_ hnot⟩
      rintro f ⟨⟩
  | cons line rest ih =>
      cases hscan : scanFields line with
      | none =>
          have hread : fieldsRead (line :: rest) = [] := by
            rw [fieldsRead, hscan]
          rw [hread]
          refine ⟨fun _ => .inr ⟨s, ?_⟩, fun hnot => absurd (by rintro f ⟨⟩) hnot⟩
          unfold loadNotes
          rw [hscan]
          rfl
      | some f =>
          have hread : fieldsRead (line :: rest) = f :: fieldsRead rest := by
            rw [fieldsRead, hscan]
          rw [List.length_cons] at hfuel
          have hrun : loadNotes fuel m framesPerSecond barpm i (line :: rest) s = _ :=
            loadNotes_cons hscan
          rw [hread, List.forall_mem_cons]
          by_cases hfits : Fits framesPerSecond barpm f
          · have htime := (timeOf_eq_some hfps).mpr ⟨hfits, rfl⟩
            have hfresh : m.note i ∉ nodes.map Prod.fst := by
              intro hmem
              obtain ⟨j, hj, heq⟩ := hbefore.2 _ hmem
              have hij := m.injective heq
              omega
            obtain ⟨r, s₁, hr, hok, herr⟩ :=
              exists_of_wp (h.attach (ε := KsiError) (E := fun _ _ => False)
              (x := (m.node i (exactTime framesPerSecond barpm f) f).2) hfresh (m.apart i)
              (show nodes.length < fuel by rw [hbefore.1]; omega))
            cases r with
            | error e => exact (herr e rfl).elim
            | ok a =>
                obtain ⟨t₁, h₁⟩ := hok a rfl
                have hrest : loadNotes fuel m framesPerSecond barpm i (line :: rest) s =
                    loadNotes fuel m framesPerSecond barpm (i + 1) rest s₁ := by
                  have hr' : (malloc (m.node i (exactTime framesPerSecond barpm f) f).1
                      (m.node i (exactTime framesPerSecond barpm f) f).2 >>= fun _ =>
                    ksiRBTreeAttach fuel (some (m.node i (exactTime framesPerSecond barpm f) f).1))
                      s =
                      some (.ok a, s₁) := hr
                  rw [hrun, htime, Option.bind_some]
                  unfold Prog.bind
                  rw [hr']
                rw [hrest]
                obtain ⟨hsafe, hunsafe⟩ := ih h₁ (hbefore.snoc _ f) (by omega)
                refine ⟨fun hall => ?_, fun hnot => hunsafe fun hall => hnot ⟨hfits, hall⟩⟩
                rcases hsafe hall.2 with ⟨fs, s', t', hload, hmap, hholds⟩ | herror
                · refine .inl ⟨f :: fs, s', t', hload, ?_, ?_⟩
                  · rw [List.map_cons, List.map_cons, hscan, hmap]
                  · rw [nodesFrom, ← List.singleton_append, ← List.append_assoc]
                    exact hholds
                · exact .inr herror
          · refine ⟨fun hall => absurd hall.1 hfits, fun _ => ?_⟩
            have htime : timeOf framesPerSecond barpm f = none := by
              cases htime : timeOf framesPerSecond barpm f with
              | none => rfl
              | some x => exact absurd ((timeOf_eq_some hfps).mp htime).1 hfits
            rw [hrun, htime]
            rfl

/-! ### The load -/

/-- The tree has one node for each line after the first, with its exact time. -/
def Loaded (m : Mallocs) (framesPerSecond : Int) (lines : List (List Char)) (tree : KsiRBTree) :
    Prop :=
  match lines with
  | [] => ∃ t, Holds tree m.sentinel t []
  | first :: rest =>
      ∃ barpm fs t, scanBarpm first = some barpm ∧ rest.map scanFields = fs.map some ∧
      Holds tree m.sentinel t (nodesFrom m framesPerSecond barpm 0 fs)

/-- The load has a result; without an error the tree that gets the id is as it is to be, and
with one no id is given and the engine stays as it is. -/
def LoadsSafely (fuel : Nat) (m : Mallocs) (lines : List (List Char)) (e : ResourceEngine) : Prop :=
  ∃ err id e', ksiTimeSeqLoadToEngineFromTextFilePath fuel m (some lines) e = some (err, id, e') ∧
    (err = ksiErrorNone → ∃ tree, Loaded m e.framesPerSecond lines tree ∧
      id = some (ksiVecInsert e.timeseqResources tree).1 ∧
      e' = { e with timeseqResources := (ksiVecInsert e.timeseqResources tree).2 }) ∧
    (err ≠ ksiErrorNone → id = none ∧ e' = e)

/-- The lines that the load comes to have numbers that fit. -/
def FileFits (framesPerSecond : Int) (lines : List (List Char)) : Prop :=
  ∀ first rest barpm, lines = first :: rest → scanBarpm first = some barpm →
    ∀ f ∈ fieldsRead rest, Fits framesPerSecond barpm f

/-- A file whose first line gives the tempo is read line by line. -/
theorem load_scanned (m : Mallocs) (framesPerSecond : Int) {first : List Char}
    (rest : List (List Char)) {barpm : Int16} (hscan : scanBarpm first = some barpm) (fuel : Nat) :
    ksiTimeSeqLoadFromTextFile fuel m (first :: rest) framesPerSecond =
      match loadNotes fuel m framesPerSecond barpm 0 rest
        (ksiRBTreeInit m.sentinel (m.garbage m.sentinel)) with
      | none => none
      | some (.error err, tree) => some (err, tree)
      | some (.ok (), tree) => some (ksiErrorNone, tree) := by
  unfold ksiTimeSeqLoadFromTextFile
  dsimp only
  rw [hscan]
  rfl

/-- **Loading a file is safe** exactly if the numbers of the lines that it comes to fit. -/
theorem loadsSafely_iff (m : Mallocs) (lines : List (List Char)) (e : ResourceEngine)
    (hplaying : e.playing ≠ .ksiEngineUninitialized) (hfps : 0 < e.framesPerSecond) (fuel : Nat)
    (hfuel : lines.length ≤ fuel) :
    LoadsSafely fuel m lines e ↔ FileFits e.framesPerSecond lines := by
  have hrefused : ∀ tree, ksiTimeSeqLoadFromTextFile fuel m lines e.framesPerSecond =
      some (ksiErrorSyntax, tree) → LoadsSafely fuel m lines e := by
    intro tree htree
    refine ⟨ksiErrorSyntax, none, e, ?_, nofun, fun _ => ⟨rfl, rfl⟩⟩
    unfold ksiTimeSeqLoadToEngineFromTextFilePath
    rw [if_neg hplaying]
    simp [htree]
  have hloaded : ∀ tree, ksiTimeSeqLoadFromTextFile fuel m lines e.framesPerSecond =
      some (ksiErrorNone, tree) → Loaded m e.framesPerSecond lines tree →
        LoadsSafely fuel m lines e := by
    intro tree htree hnotes
    refine ⟨ksiErrorNone, some (ksiVecInsert e.timeseqResources tree).1,
      { e with timeseqResources := (ksiVecInsert e.timeseqResources tree).2 }, ?_,
      fun _ => ⟨tree, hnotes, rfl, rfl⟩, fun hne => absurd rfl hne⟩
    unfold ksiTimeSeqLoadToEngineFromTextFilePath
    rw [if_neg hplaying]
    simp [htree]
  have hinit := holds_init m.sentinel (m.garbage m.sentinel)
  cases lines with
  | nil => exact iff_of_true (hloaded _ rfl ⟨_, hinit⟩) nofun
  | cons first rest =>
      cases hscan : scanBarpm first with
      | none =>
          refine iff_of_true (hrefused (ksiRBTreeInit m.sentinel (m.garbage m.sentinel)) ?_) ?_
          · unfold ksiTimeSeqLoadFromTextFile
            dsimp only
            rw [hscan]
            rfl
          · rintro _ _ barpm ⟨rfl, rfl⟩ hbarpm
            rw [hscan] at hbarpm
            cases hbarpm
      | some barpm =>
          have hfits : FileFits e.framesPerSecond (first :: rest) ↔
              ∀ f ∈ fieldsRead rest, Fits e.framesPerSecond barpm f := by
            constructor
            · exact fun h => h first rest barpm rfl hscan
            · rintro h _ _ barpm' ⟨rfl, rfl⟩ hbarpm
              rw [hscan] at hbarpm
              cases hbarpm
              exact h
          have hload := load_scanned m e.framesPerSecond rest hscan fuel
          rw [List.length_cons] at hfuel
          obtain ⟨hsafe, hunsafe⟩ := loadNotes_run barpm hfps rest hinit (i := 0)
            ⟨rfl, by rintro p ⟨⟩⟩ (show 0 + rest.length ≤ fuel by omega)
          rw [hfits]
          constructor
          · rintro ⟨err, id, e', hrun, -⟩
            by_contra hnot
            unfold ksiTimeSeqLoadToEngineFromTextFilePath at hrun
            rw [if_neg hplaying] at hrun
            simp [hload, hunsafe hnot] at hrun
          · intro hall
            rcases hsafe hall with ⟨fs, s', t', hok, hmap, hholds⟩ | ⟨s', herror⟩
            · exact hloaded s' (by rw [hload, hok]) ⟨barpm, fs, t', hscan, hmap, hholds⟩
            · exact hrefused s' (by rw [hload, herror])

/-! ### What a load that succeeds leaves

Here it does not matter whether the numbers fit: with a result, the tree has nodes that
`malloc` has returned. -/

theorem loadNotes_holds {fuel : Nat} (lines : List (List Char)) {i : Nat} {s : KsiRBTree}
    {t : BinaryTree Ptr} {nodes : List (Ptr × KsiRBNode)} (h : Holds s m.sentinel t nodes)
    (hbefore : Before m i nodes) (hfuel : i + lines.length ≤ fuel) :
    wp True (loadNotes fuel m framesPerSecond barpm i lines) s
      (fun _ s' => ∃ t' nodes', Holds s' m.sentinel t' nodes' ∧ Before m (i + lines.length) nodes')
      fun err _ => err ≠ ksiErrorNone := by
  induction lines generalizing i s t nodes with
  | nil => exact ⟨t, nodes, h, hbefore⟩
  | cons line rest ih =>
      rw [List.length_cons] at hfuel ⊢
      unfold loadNotes
      rw [wp_bind, wp_orError]
      refine ⟨fun f _ => ?_, fun _ => by decide⟩
      rw [wp_bind, wp_read]
      refine ⟨fun _ => trivial, fun time _ => ?_⟩
      have hfresh : m.note i ∉ nodes.map Prod.fst := by
        intro hmem
        obtain ⟨j, hj, heq⟩ := hbefore.2 _ hmem
        have hij := m.injective heq
        omega
      have hattach := h.attach (E := fun err _ => err ≠ ksiErrorNone)
        (x := (m.node i time f).2) hfresh
        (m.apart i) (show nodes.length < fuel by rw [hbefore.1]; omega)
      rw [wp_bind] at hattach
      dsimp only
      rw [wp_bind]
      refine wp_mono (wp_of_total hattach) (fun _ s₁ h₁ => ?_) fun _ _ hE => hE
      rw [wp_bind]
      refine wp_mono (wp_of_total h₁) ?_ fun _ _ hE => hE
      rintro _ s₂ ⟨t₂, h₂⟩
      rw [show i + (rest.length + 1) = i + 1 + rest.length by omega]
      exact ih h₂ (hbefore.snoc time f) (by omega)

theorem load_holds {fuel : Nat} {lines : List (List Char)} {tree : KsiRBTree}
    (hfuel : lines.length ≤ fuel)
    (hload : ksiTimeSeqLoadFromTextFile fuel m lines framesPerSecond = some (ksiErrorNone, tree)) :
    ∃ t nodes, Holds tree m.sentinel t nodes ∧ ∀ p ∈ nodes.map Prod.fst, ∃ j < lines.length,
    p = m.note j := by
  have hinit := holds_init m.sentinel (m.garbage m.sentinel)
  cases lines with
  | nil =>
      cases hload
      exact ⟨_, [], hinit, by rintro p ⟨⟩⟩
  | cons first rest =>
      cases hscan : scanBarpm first with
      | none =>
          unfold ksiTimeSeqLoadFromTextFile at hload
          dsimp only at hload
          rw [hscan] at hload
          cases hload
      | some barpm =>
          rw [List.length_cons] at hfuel
          rw [load_scanned m framesPerSecond rest hscan] at hload
          have hnotes : wp True (loadNotes fuel m framesPerSecond barpm 0 rest) _ _ _ :=
            loadNotes_holds rest hinit ⟨rfl, by rintro p ⟨⟩⟩ (by omega)
          split at hload
          · cases hload
          · rename_i hrun
            cases hload
            exact absurd rfl (of_wp_error hnotes hrun)
          · rename_i hrun
            cases hload
            obtain ⟨t, nodes, hholds, hbefore⟩ := of_wp_ok hnotes hrun
            refine ⟨t, nodes, hholds, fun p hp => ?_⟩
            obtain ⟨j, hj, rfl⟩ := hbefore.2 p hp
            exact ⟨j, by rw [List.length_cons]; omega, rfl⟩

/-- Pointers in a row. -/
def inARow : Mallocs where
  sentinel := 0
  note := fun i => i + 1
  garbage := fun _ => ⟨none, none, none, 0, 0, ⟨0, 0⟩⟩
  injective := fun _ _ h => Nat.succ.inj h
  apart := Nat.succ_ne_zero

/-- A stopped engine with no resources. -/
def stoppedEngine : ResourceEngine where
  playing := .ksiEngineStopped
  framesPerSecond := 48000
  timeseqResources := ksiVecInit KsiRBTree 32

/-- One note in the first of so many bars of a minute. -/
def oneNote (barpm : Char) : List (List Char) :=
  [[barpm, '\n'], ['0', ' ', '4', ' ', '0', ' ', '6', '4', ' ', '9', '9', '\n']]

theorem loadsSafely_iff_oneNote :
    LoadsSafely 2 inARow (oneNote '4') stoppedEngine ↔ FileFits 48000 (oneNote '4') :=
  loadsSafely_iff inARow (oneNote '4') stoppedEngine (by decide) (by decide) 2 (by decide)

/-- With no bars in a minute, the load divides by zero. -/
theorem not_loadsSafely : ¬ ∀ (m : Mallocs) (lines : List (List Char)) (e : ResourceEngine),
    e.playing ≠ .ksiEngineUninitialized → 0 < e.framesPerSecond → ∀ fuel, lines.length ≤ fuel →
    LoadsSafely fuel m lines e := by
  intro h
  obtain ⟨err, id, e', hrun, -⟩ :=
    h inARow (oneNote '0') stoppedEngine (by decide) (by decide) 2 (by decide)
  have hnone : (ksiTimeSeqLoadToEngineFromTextFilePath 2 inARow (some (oneNote '0'))
      stoppedEngine).isNone = true := by decide +kernel
  rw [hrun] at hnone
  cases hnone

end Ksi.Resource
