/-
What the lines do to an engine that nothing has initialised.

`LeftAlone` is about one call of `consume_line`, and `EachCall` about all the calls that a
line makes, which are those for the lines of the files that it loads too.  Only the kernels
of dagedit.c and the two functions of resource.c look whether the engine has been
initialised, and the first of them only after the lock.  So a line that does not come to one
of them is not left alone: a `.`, a `-` and an `a` change the engine, and a `P`, an `R`, an
`e` and a `>` report nothing.  A `w` or a `b` looks up a port before.
-/
import Ksi.Proofs.Cmd.Reading

namespace Ksi.Cmd.Full

open Dag Pool Prog Runs KsiError Playing

variable {p : Platform} {d d' : State} {fuel : Nat} {toRet : Bool} {lptr line : List Char}

/-- Nothing has initialised the engine. -/
structure Uninitialized (d : State) : Prop where
  playing : d.handler.playing = ksiEngineUninitialized
  engine : d.handler.session.engine.playing = -2

theorem Uninitialized.same (h : Uninitialized d) (hsame : SameEngine d d') : Uninitialized d' :=
  ⟨hsame.playing.trans h.playing, by rw [hsame.session]; exact h.engine⟩

/-! ### Calls of consume_line -/

/-- The call returns, changes neither the engine nor the pool, and reports
`ksiErrorUninitialized` if the line is a command. -/
def LeftAlone (p : Platform) (fuel : Nat) (toRet : Bool) (d : State) (line : List Char) : Prop :=
  ∃ r d', consume_line p fuel toRet line d = some (r, d') ∧ SameEngine d d' ∧
    (WellFormed p line → r = .error ksiErrorUninitialized)

/-- Which state the loop over a file goes on with. -/
def fileStep (p : Platform) (fuel : Nat) (d : State) (line : List Char) : Option State :=
  match consume_line p fuel false line d with
  | some (.ok false, d') => some d'
  | _ => none

/-- Every call of `consume_line` that handling a line makes, the one for the line included. -/
def EachCall (p : Platform) (G : Nat → Bool → State → List Char → Prop) :
    Nat → Bool → State → List Char → Prop
  | 0, toRet, d, line => G 0 toRet d line
  | fuel + 1, toRet, d, line => G (fuel + 1) toRet d line ∧
      ∀ lptr lines, line = 'l' :: lptr → p.file (path lptr) = some lines →
        Throughout (fileStep p fuel) (EachCall p G fuel false) d lines

/-- The text from which a number is to be read after the lookup of the port. -/
def PortChecked (p : Platform) (d : State) (id port : Int) (text : Option (List Char))
    (command : Prop) : Prop :=
  d.lockable = true ∧
    match portType d id port with
    | none => False
    | some (.error _) => ¬ command
    | some (.ok t) => ∃ l, text = some l ∧ (command → (numberAt p t l).isSome = true)

/-- The line comes to a check of `playing` before it changes or returns anything. -/
def Checked (p : Platform) (fuel : Nat) (d : State) : List Char → Prop
  | 'n' :: lptr => (scanType lptr).isSome = true → d.lockable = true
  | 'w' :: lptr => ∀ wire, scanWire lptr = some wire →
      PortChecked p d wire.1.2.1 wire.1.2.2
        ((scanChar 'x' wire.2).or (textAt p lptr p.unassigned)) (IsWire p lptr)
  | 'd' :: lptr => (scanNodes lptr).isSome = true → d.lockable = true
  | 'r' :: lptr => (scanD lptr).isSome = true → d.lockable = true
  | 'u' :: lptr => (scanWire lptr).isSome = true → d.lockable = true
  | '.' :: lptr => scanD lptr = none
  | '-' :: lptr => p.scanFloat lptr = none
  | 'b' :: lptr => ∀ des, scanPort lptr = some des →
      PortChecked p d des.1.1 des.1.2
        ((scanChar 'x' des.2).or (textAt p lptr p.unassigned)) (IsBias p lptr)
  | 'e' :: lptr => scanArgs lptr = none
  | 'a' :: lptr => ¬ (lptr = [] ∨ lptr.head? = some '\n')
  | 'P' :: _ | 'R' :: _ | '>' :: _ => False
  | 'l' :: lptr => fuel = 0 → p.file (path lptr) = none
  | _ => True

/-! ### Requests -/

theorem checkInitialized_uninitialized {e : Engine} (h : e.playing = -2) :
    checkInitialized e = some (.error ksiErrorUninitialized, e) := by
  show Prog.require (e.playing ≠ -2) ksiErrorUninitialized e = _
  rw [Prog.require, if_neg (not_not.mpr h)]
  rfl

/-- Every kernel looks first whether the engine has been initialised. -/
theorem kernel_uninitialized (c : Call) (flag : Flag) {e : Engine} (h : e.playing = -2) :
    c.kernel flag e = some (.error ksiErrorUninitialized, e) := by
  have hcheck := checkInitialized_uninitialized h
  cases c with
  | addNode typeFlags => exact bind_of_error (bind_of_error hcheck _) _
  | makeWire srcId srcPort desId desPort gain => exact bind_of_error (bind_of_error hcheck _) _
  | makeBias desId desPort bias => exact bind_of_error (bind_of_error hcheck _) _
  | detachNodes srcId desId => exact bind_of_error (bind_of_error hcheck _) _
  | removeNode id => exact bind_of_error (bind_of_error hcheck _) _
  | removeWire srcId srcPort desId desPort => exact bind_of_error (bind_of_error hcheck _) _
  | sendEditingCommand id args => exact bind_of_error (bind_of_error hcheck _) _

theorem call_uninitialized (hu : Uninitialized d) (c : Call) :
    d.handler.session.call c = some ((ksiErrorUninitialized, none), d.handler.session) := by
  unfold Session.call
  rw [kernel_uninitialized c _ hu.engine]

/-- A function of dagedit.c reports what its kernel has found. -/
theorem request_uninitialized (hu : Uninitialized d) (hlock : d.lockable = true) {c : Call}
    (hc : ∀ id args, c ≠ .sendEditingCommand id args) :
    ∃ d', locked (request c) d = some (.error ksiErrorUninitialized, d') ∧ SameEngine d d' := by
  have hrequest : d.handler.session.request c =
      some ((ksiErrorUninitialized, none), d.handler.session) := by
    unfold Session.request
    split
    · exact absurd rfl (hc _ _)
    · exact call_uninitialized hu c
  unfold locked onHandler request
  rw [if_pos hlock, hrequest]
  exact ⟨_, rfl, sameEngine_handler rfl rfl rfl rfl rfl⟩

/-- `ksiEngineSendEditingCommand` does not. -/
theorem send_uninitialized (hu : Uninitialized d) (hlock : d.lockable = true) (id : Int)
    (args : String) :
    ∃ d', locked (request (.sendEditingCommand id args)) d = some (.ok none, d') := by
  have hrequest : d.handler.session.request (.sendEditingCommand id args) =
      some ((ksiErrorNone, none), d.handler.session) := by
    unfold Session.request
    rw [call_uninitialized hu]
    rfl
  unfold locked onHandler request
  rw [if_pos hlock, hrequest]
  exact ⟨_, rfl⟩

/-! ### One call -/

theorem leftAlone_iff_of_run {r : Except KsiError Bool}
    (hrun : consume_line p fuel toRet line d = some (r, d')) :
    LeftAlone p fuel toRet d line ↔
      SameEngine d d' ∧ (WellFormed p line → r = .error ksiErrorUninitialized) := by
  unfold LeftAlone
  rw [hrun]
  constructor
  · rintro ⟨r', d₁, heq, h⟩
    cases heq
    exact h
  · exact fun h => ⟨r, d', rfl, h⟩

theorem not_leftAlone_of_none (hrun : consume_line p fuel toRet line d = none) :
    ¬ LeftAlone p fuel toRet d line := by
  rintro ⟨r, d', heq, -⟩
  rw [hrun] at heq
  cases heq

/-- A line that is refused as it stands. -/
theorem leftAlone_refused
    (hrun : consume_line p fuel toRet line d = some (.error ksiErrorSyntax, d))
    (hwf : ¬ WellFormed p line) : LeftAlone p fuel toRet d line :=
  (leftAlone_iff_of_run hrun).mpr ⟨.refl d, fun h => absurd h hwf⟩

/-- A line that makes an edit. -/
theorem leftAlone_edit (hu : Uninitialized d) {α : Type} {o : Option α} {c : α → Call}
    {k : α → Option Nat → Line Unit} (hc : ∀ a id args, c a ≠ .sendEditingCommand id args)
    (hline : consume_line p fuel toRet line =
      (orError o ksiErrorSyntax >>= fun a => locked (request (c a)) >>= k a) >>=
      fun _ => pure false)
    (hwf : WellFormed p line ↔ o.isSome = true) :
    LeftAlone p fuel toRet d line ↔ (o.isSome = true → d.lockable = true) := by
  cases o with
  | none =>
      have hrun : consume_line p fuel toRet line d = some (.error ksiErrorSyntax, d) := by
        rw [hline]
        rfl
      refine iff_of_true (leftAlone_refused hrun fun h => ?_) nofun
      cases hwf.mp h
  | some a =>
      rw [orError_some_bind] at hline
      by_cases hlock : d.lockable = true
      · obtain ⟨d', hrequest, hsame⟩ := request_uninitialized hu hlock (hc a)
        have hrun : consume_line p fuel toRet line d = some (.error ksiErrorUninitialized, d') := by
          rw [hline]
          exact bind_of_error (bind_of_error hrequest _) _
        exact iff_of_true ((leftAlone_iff_of_run hrun).mpr ⟨hsame, fun _ => rfl⟩) fun _ => hlock
      · have hrun : consume_line p fuel toRet line d = none := by
          rw [hline]
          exact bind_of_none (bind_of_none (locked_of_not hlock _) _) _
        exact iff_of_false (not_leftAlone_of_none hrun) fun h => hlock (h rfl)

/-! ### Lines that look up a port -/

variable {id port : Int} {text : Option (List Char)} {command : Prop} {c : KsiData → Call}

/-- The part of a `w` and of a `b` from the lookup of the port on. -/
theorem port_run (hu : Uninitialized d) (hc : ∀ g id args, c g ≠ .sendEditingCommand id args) :
    PortChecked p d id port text command ↔
      ∃ r d', portLine p id port c text d = some (r, d') ∧
        SameEngine d d' ∧ (command → r = .error ksiErrorUninitialized) := by
  unfold PortChecked
  by_cases hlock : d.lockable = true
  · rw [and_iff_right hlock, portLine_run hlock]
    cases htype : portType d id port with
    | none => exact iff_of_false (fun h => h) (by rintro ⟨r, d', hrun, -⟩; cases hrun)
    | some r =>
        cases r with
        | error e =>
            constructor
            · exact fun h => ⟨_, _, rfl, .refl d, fun hcommand => absurd hcommand h⟩
            · rintro ⟨r, d', hrun, -, hreport⟩ hcommand
              cases hrun
              cases hreport hcommand
              rcases portType_error htype with h | h
              · cases h
              · cases h
        | ok t =>
            cases text with
            | none =>
                refine iff_of_false ?_ ?_
                · rintro ⟨l, hl, -⟩
                  cases hl
                · rintro ⟨r, d', hrun, -⟩
                  cases hrun
            | some l =>
                dsimp only
                cases hnumber : numberAt p t l with
                | none =>
                    constructor
                    · rintro ⟨l', hl, h⟩
                      cases hl
                      rw [hnumber] at h
                      exact ⟨_, _, rfl, .refl d, fun hcommand => by cases h hcommand⟩
                    · rintro ⟨r, d', hrun, -, hreport⟩
                      cases hrun
                      exact ⟨l, rfl, fun hcommand => by cases hreport hcommand⟩
                | some g =>
                    obtain ⟨d', hrequest, hsame⟩ := request_uninitialized hu hlock (hc g)
                    refine iff_of_true ⟨l, rfl, fun _ => by rw [hnumber]; rfl⟩ ?_
                    exact ⟨_, d', bind_of_error hrequest _, hsame, fun _ => rfl⟩
  · refine iff_of_false (fun h => hlock h.1) ?_
    rintro ⟨r, d', hrun, -⟩
    unfold portLine at hrun
    rw [bind_of_none (locked_of_not hlock _)] at hrun
    cases hrun

/-- The store to `*idRet` leaves the engine. -/
theorem setIdRet_run (toRet : Bool) (id : Int) :
    ∃ d', onHandler (setIdRet toRet id) d = some (.ok (), d') ∧ SameEngine d d' := by
  cases toRet with
  | false => exact ⟨d, rfl, .refl d⟩
  | true => exact ⟨_, rfl, sameEngine_handler rfl rfl rfl rfl rfl⟩

/-- A case of the switch returns what its part returns. -/
theorem goOn_run {x : Line Unit} {d₀ : State} :
    (∃ r d', (x >>= fun _ => (pure false : Line Bool)) d = some (r, d') ∧ SameEngine d₀ d' ∧
        (command → r = .error ksiErrorUninitialized)) ↔
      ∃ r d', x d = some (r, d') ∧ SameEngine d₀ d' ∧
        (command → r = .error ksiErrorUninitialized) := by
  cases hx : x d with
  | none =>
      rw [bind_of_none hx]
      constructor
      · rintro ⟨r, d', hrun, -⟩
        cases hrun
      · rintro ⟨r, d', hrun, -⟩
        cases hrun
  | some res =>
      obtain ⟨e | a, d₁⟩ := res
      · rw [bind_of_error hx]
        constructor
        · rintro ⟨r, d', hrun, hsame, hreport⟩
          cases hrun
          exact ⟨_, _, rfl, hsame, fun h => by cases hreport h; rfl⟩
        · rintro ⟨r, d', hrun, hsame, hreport⟩
          cases hrun
          exact ⟨_, _, rfl, hsame, fun h => by cases hreport h; rfl⟩
      · rw [bind_of_ok hx]
        constructor
        · rintro ⟨r, d', hrun, hsame, hreport⟩
          cases hrun
          exact ⟨_, _, rfl, hsame, fun h => by cases hreport h⟩
        · rintro ⟨r, d', hrun, hsame, hreport⟩
          cases hrun
          exact ⟨_, _, rfl, hsame, fun h => by cases hreport h⟩

/-- A line that looks up a port, from the read position on. -/
theorem leftAlone_port (hu : Uninitialized d) (hc : ∀ g id args, c g ≠ .sendEditingCommand id args)
    {rest : Option (List Char)}
    (hline : consume_line p fuel toRet line d =
      ((advance p lptr rest >>= portLine p id port c) >>= fun _ => pure false) d)
    (hwf : WellFormed p line ↔ command) :
    LeftAlone p fuel toRet d line ↔
      PortChecked p d id port (rest.or (textAt p lptr p.unassigned)) command := by
  obtain ⟨d₁, hadvance, hhandler, hsame₁⟩ : ∃ d₁, advance p lptr rest d =
      some (.ok (rest.or (textAt p lptr p.unassigned)), d₁) ∧ d₁.handler = d.handler ∧
        SameEngine d d₁ :=
    advance_run rest
  have hchecked : PortChecked p d id port (rest.or (textAt p lptr p.unassigned)) command ↔
      PortChecked p d₁ id port (rest.or (textAt p lptr p.unassigned)) command := by
    unfold PortChecked portType
    rw [hsame₁.lockable, hhandler]
  rw [hchecked, port_run (hu.same hsame₁) hc]
  unfold LeftAlone
  rw [hline, goOn_run, bind_of_ok hadvance, hwf]
  constructor
  · rintro ⟨r, d', hrun, hsame, hreport⟩
    exact ⟨r, d', hrun, hsame₁.symm.trans hsame, hreport⟩
  · rintro ⟨r, d', hrun, hsame, hreport⟩
    exact ⟨r, d', hrun, hsame₁.trans hsame, hreport⟩

theorem leftAlone_makeWire (hu : Uninitialized d) :
    LeftAlone p fuel toRet d ('w' :: lptr) ↔ Checked p fuel d ('w' :: lptr) := by
  have hline := consume_line_w (p := p) fuel toRet lptr
  cases hscan : scanWire lptr with
  | none =>
      obtain ⟨d₁, hadvance, -, hsame⟩ : ∃ d₁, advance p lptr none d =
          some (.ok (textAt p lptr p.unassigned), d₁) ∧ d₁.handler = d.handler ∧ SameEngine d d₁ :=
        advance_run none
      have hrun : consume_line p fuel toRet ('w' :: lptr) d = some (.error ksiErrorSyntax, d₁) := by
        rw [hline, makeWire_of_none hscan]
        exact bind_of_error (bind_of_ok hadvance _) _
      refine iff_of_true ((leftAlone_iff_of_run hrun).mpr ⟨hsame, ?_⟩) ?_
      · rintro ⟨wire, l, hwire, -⟩
        rw [hscan] at hwire
        cases hwire
      · intro wire hwire
        rw [hscan] at hwire
        cases hwire
  | some wire =>
      obtain ⟨⟨⟨srcId, srcPort⟩, desId, desPort⟩, rest⟩ := wire
      rw [makeWire_of_some hscan] at hline
      refine (leftAlone_port hu (fun g id args h => by cases h) (congrFun hline d) Iff.rfl).trans
        ⟨fun h wire hwire => ?_, fun h => ?_⟩
      · rw [hscan] at hwire
        cases hwire
        exact h
      · exact h _ hscan

theorem leftAlone_makeBias (hu : Uninitialized d) :
    LeftAlone p fuel toRet d ('b' :: lptr) ↔ Checked p fuel d ('b' :: lptr) := by
  have hline := consume_line_b (p := p) fuel toRet lptr
  cases hscan : scanPort lptr with
  | none =>
      have hrun : consume_line p fuel toRet ('b' :: lptr) d = some (.error ksiErrorSyntax, d) := by
        rw [hline, makeBias_of_none hscan]
        rfl
      refine iff_of_true (leftAlone_refused hrun ?_) ?_
      · rintro ⟨des, l, hdes, -⟩
        rw [hscan] at hdes
        cases hdes
      · intro des hdes
        rw [hscan] at hdes
        cases hdes
  | some des =>
      obtain ⟨⟨desId, desPort⟩, rest⟩ := des
      rw [makeBias_of_some hscan] at hline
      refine (leftAlone_port hu (fun g id args h => by cases h) (congrFun hline d) Iff.rfl).trans
        ⟨fun h des hdes => ?_, fun h => ?_⟩
      · rw [hscan] at hdes
        cases hdes
        exact h
      · exact h _ hscan

/-! ### Lines that are not left alone -/

/-- A line with no error is not. -/
theorem not_leftAlone_of_ok {a : Bool} (hrun : consume_line p fuel toRet line d = some (.ok a, d'))
    (hwf : WellFormed p line) : ¬ LeftAlone p fuel toRet d line := by
  rw [leftAlone_iff_of_run hrun]
  rintro ⟨-, hreport⟩
  cases hreport hwf

/-- A line that sets the time stores it. -/
theorem leftAlone_setTime {α : Type} {o : Option α} {f : α → Nat}
    (hline : consume_line p fuel toRet line =
      (orError o ksiErrorSyntax >>= fun a => setTime (f a)) >>= fun _ => pure false)
    (hwf : WellFormed p line ↔ o.isSome = true) :
    LeftAlone p fuel toRet d line ↔ o = none := by
  cases o with
  | none =>
      have hrun : consume_line p fuel toRet line d = some (.error ksiErrorSyntax, d) := by
        rw [hline]
        rfl
      exact iff_of_true (leftAlone_refused hrun fun h => by cases hwf.mp h) rfl
  | some a =>
      have hrun : consume_line p fuel toRet line d =
          some (.ok false, { d with timeStamp := f a, notRequireReset := false }) := by
        rw [hline]
        rfl
      exact iff_of_false (not_leftAlone_of_ok hrun (hwf.mpr rfl)) nofun

/-- An `e` returns no error. -/
theorem leftAlone_editNode (hu : Uninitialized d) :
    LeftAlone p fuel toRet d ('e' :: lptr) ↔ scanArgs lptr = none := by
  have hline := consume_line_verb (p := p) (by decide : 'e' ≠ 'l') fuel toRet lptr
  cases hscan : scanArgs lptr with
  | none =>
      have hrun : consume_line p fuel toRet ('e' :: lptr) d = some (.error ksiErrorSyntax, d) := by
        rw [hline]
        show (editNode toRet lptr >>= fun _ => pure false) d = _
        unfold Full.editNode
        rw [hscan]
        rfl
      refine iff_of_true (leftAlone_refused hrun fun h => ?_) rfl
      have hsome : (scanArgs lptr).isSome = true := h
      rw [hscan] at hsome
      cases hsome
  | some args =>
      have hwf : WellFormed p ('e' :: lptr) := by
        show (scanArgs lptr).isSome = true
        rw [hscan]
        rfl
      refine iff_of_false ?_ nofun
      obtain ⟨id, args⟩ := args
      obtain ⟨d₁, hret, hsame⟩ := setIdRet_run (d := d) toRet id
      have hcase : consume_line p fuel toRet ('e' :: lptr) d =
          ((locked (request (.sendEditingCommand id (String.ofList args))) >>= fun _ =>
            (pure () : Line Unit)) >>= fun _ => pure false) d₁ := by
        rw [hline]
        show (editNode toRet lptr >>= fun _ => pure false) d = _
        unfold Full.editNode
        rw [hscan, orError_some_bind, bind_assoc, bind_of_ok hret]
      by_cases hlock : d₁.lockable = true
      · obtain ⟨d', hsend⟩ := send_uninitialized (hu.same hsame) hlock id (String.ofList args)
        rw [bind_assoc, bind_of_ok hsend] at hcase
        exact not_leftAlone_of_ok hcase hwf
      · rw [bind_assoc, bind_of_none (locked_of_not hlock _)] at hcase
        exact not_leftAlone_of_none hcase

theorem pause_none (playing : Playing) (wp : WorkerPool) :
    (ksiEnginePause playing wp).1 = ksiErrorNone := by
  unfold ksiEnginePause
  split <;> rfl

theorem resume_none (playing : Playing) (wp : WorkerPool) :
    (ksiEngineResume playing wp).1 = ksiErrorNone := by
  unfold ksiEngineResume
  split <;> rfl

/-- What returns no error, or is stopped by the lock. -/
theorem not_leftAlone_onPool {f : Playing → WorkerPool → KsiError × Playing × WorkerPool}
    (hf : ∀ playing wp, (f playing wp).1 = ksiErrorNone)
    (hline : consume_line p fuel toRet line = locked (onPool f) >>= fun _ => pure false)
    (hwf : WellFormed p line) : ¬ LeftAlone p fuel toRet d line := by
  by_cases hlock : d.lockable = true
  · have hrun : locked (onPool f) d = some (.ok (), { d with
        handler := d.handler.put (f d.handler.playing d.handler.wp).2 }) := by
      unfold locked onHandler onPool
      rw [if_pos hlock]
      dsimp only
      rw [if_pos (hf _ _)]
      rfl
    have hcase : consume_line p fuel toRet line d = some (.ok false, { d with
        handler := d.handler.put (f d.handler.playing d.handler.wp).2 }) := by
      rw [hline]
      exact bind_of_ok hrun _
    exact not_leftAlone_of_ok hcase hwf
  · refine not_leftAlone_of_none ?_
    rw [hline]
    exact bind_of_none (locked_of_not hlock _) _

/-! ### An `a`

The engine is stopped before anything looks at `playing`, and is initialised from then on
by what `playing` says. -/

/-- `playing` says that the engine has been initialised. -/
def SaysInitialised (d : State) : Prop := d.handler.playing ≠ ksiEngineUninitialized

theorem keeps_onHandler {α : Type} {x : Cmd.Line α}
    (hx : Keeps (fun h : Handler => h.playing ≠ ksiEngineUninitialized) x) :
    Keeps SaysInitialised (onHandler x) := by
  intro d hd
  have hwp := hx d.handler hd
  unfold Prog.wp onHandler at *
  cases hr : x d.handler with
  | none => trivial
  | some r =>
      rw [hr] at hwp
      obtain ⟨e | a, h⟩ := r
      · exact hwp
      · exact hwp

theorem keeps_locked {α : Type} {x : Cmd.Line α}
    (hx : Keeps (fun h : Handler => h.playing ≠ ksiEngineUninitialized) x) :
    Keeps SaysInitialised (locked x) := by
  intro d hd
  by_cases hlock : d.lockable = true
  · have heq : locked x d = onHandler x d := if_pos hlock
    unfold Prog.wp
    rw [heq]
    exact keeps_onHandler hx d hd
  · unfold Prog.wp
    rw [locked_of_not hlock]
    trivial

theorem keeps_commit : Keeps SaysInitialised commit := by
  have hcommit : Keeps (fun h : Handler => h.playing ≠ ksiEngineUninitialized) Cmd.commit := by
    intro h hh
    unfold Prog.wp Cmd.commit
    cases ksiEngineCommit h.session h.other with
    | none => trivial
    | some r =>
        show h.turn.playing ≠ _
        rwa [Handler.turn_playing]
  intro d hd
  have hd' : wp True (onHandler Cmd.commit) d (fun _ => SaysInitialised)
    (fun _ => SaysInitialised) :=
    keeps_onHandler hcommit d hd
  have hd'' := keeps_locked hcommit d hd
  unfold Prog.wp commit at *
  split_ifs
  · exact hd'
  · exact hd''

theorem keeps_checkInitialized : Keeps (fun h : Handler => h.playing ≠ ksiEngineUninitialized)
    (onEngine checkInitialized) := by
  intro h hh
  unfold Prog.wp onEngine
  cases checkInitialized h.session.engine with
  | none => trivial
  | some r =>
      obtain ⟨e | a, engine⟩ := r
      · exact hh
      · exact hh

theorem keeps_paIOInit {err : KsiError} :
    Keeps (fun h : Handler => h.playing ≠ ksiEngineUninitialized)
    (Prog.require (err = ksiErrorNone) err) :=
  (keeps_compositional (P := fun _ => True) _).require trivial

theorem keeps_launch : Keeps (fun h : Handler => h.playing ≠ ksiEngineUninitialized)
    (onPool ksiEngineLaunch) := by
  intro h hh
  have hput : (h.put (ksiEngineLaunch h.playing h.wp).2).playing ≠ ksiEngineUninitialized :=
    launch_initialised h.playing h.wp hh
  unfold Prog.wp onPool
  by_cases herr : (ksiEngineLaunch h.playing h.wp).1 = ksiErrorNone
  · simpa [herr] using hput
  · simpa [herr] using hput

theorem stop_initialises (hu : Uninitialized d) :
    wp True stop d (fun _ => SaysInitialised) fun _ => SaysInitialised := by
  have hnot : d.handler.playing ≠ ksiEngineStopped := by
    rw [hu.playing]
    decide
  have hstop : stop d = locked (onPool fun _ => ksiEngineStop) d := by
    show Prog.when (d.handler.playing ≠ ksiEngineStopped)
      (locked (onPool fun _ => ksiEngineStop)) d = _
    rw [Prog.when, if_pos hnot]
  unfold Prog.wp
  rw [hstop]
  by_cases hlock : d.lockable = true
  · unfold locked
    rw [if_pos hlock]
    show ksiEngineStopped ≠ ksiEngineUninitialized
    decide
  · rw [locked_of_not hlock]
    trivial

theorem leftAlone_initializeAudio (hu : Uninitialized d) :
    LeftAlone p fuel toRet d ('a' :: lptr) ↔ ¬ (lptr = [] ∨ lptr.head? = some '\n') := by
  have hline := consume_line_verb (p := p) (by decide : 'a' ≠ 'l') fuel toRet lptr
  by_cases hwf : lptr = [] ∨ lptr.head? = some '\n'
  · refine iff_of_false ?_ (not_not.mpr hwf)
    have hK := keeps_compositional (ε := KsiError) (P := fun _ => True) SaysInitialised
    have hwp : wp True (consume_line p fuel toRet ('a' :: lptr)) d (fun _ => SaysInitialised)
        fun _ => SaysInitialised := by
      rw [hline]
      show wp True (initializeAudio p lptr >>= fun _ => pure false) d _ _
      unfold Full.initializeAudio
      rw [bind_assoc, wp_bind, wp_require]
      refine ⟨fun _ => ?_, fun hnot => absurd hwf hnot⟩
      rw [bind_assoc, wp_bind]
      refine wp_mono (stop_initialises hu) (fun _ d₁ h₁ => ?_) fun _ _ h => h
      exact (hK.bind (hK.bind (keeps_onHandler keeps_checkInitialized) fun _ =>
        hK.bind (keeps_locked keeps_paIOInit) fun _ => hK.bind keeps_commit fun _ =>
          keeps_locked keeps_launch) fun _ => hK.pure false) d₁ h₁
    rintro ⟨r, d', hrun, hsame, -⟩
    have hplaying : d'.handler.playing = ksiEngineUninitialized := hsame.playing.trans hu.playing
    cases r with
    | error e => exact of_wp_error hwp hrun hplaying
    | ok a => exact of_wp_ok hwp hrun hplaying
  · have hrun : consume_line p fuel toRet ('a' :: lptr) d = some (.error ksiErrorSyntax, d) := by
      rw [hline]
      show (initializeAudio p lptr >>= fun _ => pure false) d = _
      unfold Full.initializeAudio
      rw [Prog.require, if_neg hwf]
      rfl
    exact iff_of_true (leftAlone_refused hrun hwf) hwf

/-! ### Every call -/

/-- A line that is no command and does nothing. -/
theorem leftAlone_nothing {r : Except KsiError Bool}
    (hrun : consume_line p fuel toRet line d = some (r, d)) (hwf : ¬ WellFormed p line) :
    LeftAlone p fuel toRet d line :=
  (leftAlone_iff_of_run hrun).mpr ⟨.refl d, fun h => absurd h hwf⟩

/-- What the engine's own function has found. -/
theorem onEngine_uninitialized {α : Type} {x : Edit α} {h : Handler}
    (hx : x h.session.engine = some (.error ksiErrorUninitialized, h.session.engine)) :
    onEngine x h = some (.error ksiErrorUninitialized, h) := by
  unfold onEngine
  rw [hx]
  rfl

theorem leftAlone_loadTimeSeq (hu : Uninitialized d) :
    LeftAlone p fuel toRet d ('o' :: lptr) := by
  have hline := consume_line_verb (p := p) (by decide : 'o' ≠ 'l') fuel toRet lptr
  have hload : onHandler (loadTimeSeq p.toWorld toRet lptr) d =
      some (.error ksiErrorUninitialized, d) := by
    unfold onHandler
    rw [show loadTimeSeq p.toWorld toRet lptr d.handler = some (.error ksiErrorUninitialized,
      d.handler) from
      bind_of_error (onEngine_uninitialized (checkInitialized_uninitialized hu.engine)) _]
    rfl
  have hrun : consume_line p fuel toRet ('o' :: lptr) d = some (.error ksiErrorUninitialized,
    d) := by
    rw [hline]
    exact bind_of_error hload _
  exact (leftAlone_iff_of_run hrun).mpr ⟨.refl d, fun _ => rfl⟩

theorem leftAlone_unloadTimeSeq (hu : Uninitialized d) :
    LeftAlone p fuel toRet d ('t' :: lptr) := by
  have hline := consume_line_verb (p := p) (by decide : 't' ≠ 'l') fuel toRet lptr
  cases hscan : scanD lptr with
  | none =>
      have hrun : consume_line p fuel toRet ('t' :: lptr) d = some (.error ksiErrorSyntax, d) := by
        rw [hline]
        show (onHandler (unloadTimeSeq lptr) >>= fun _ => pure false) d = _
        unfold unloadTimeSeq
        rw [hscan]
        rfl
      refine leftAlone_refused hrun fun h => ?_
      have hsome : (scanD lptr).isSome = true := h
      rw [hscan] at hsome
      cases hsome
  | some id =>
      have hunload : onHandler (unloadTimeSeq lptr) d = some (.error ksiErrorUninitialized, d) := by
        unfold onHandler unloadTimeSeq
        rw [hscan, orError_some_bind, onEngine_uninitialized (x := ksiTimeSeqUnloadFromEngine id.1)
          (bind_of_error (checkInitialized_uninitialized hu.engine) _)]
        rfl
      have hrun : consume_line p fuel toRet ('t' :: lptr) d = some (.error ksiErrorUninitialized,
        d) := by
        rw [hline]
        exact bind_of_error hunload _
      exact (leftAlone_iff_of_run hrun).mpr ⟨.refl d, fun _ => rfl⟩

/-- **A line that loads no file is left alone** exactly if it comes to a check. -/
theorem leftAlone_verb (hu : Uninitialized d) {cmd : Char} (hl : cmd ≠ 'l') (hi : cmd ≠ 'i') :
    LeftAlone p fuel toRet d (cmd :: lptr) ↔ Checked p fuel d (cmd :: lptr) := by
  have hline := consume_line_verb (p := p) hl fuel toRet lptr
  unfold Full.consumeVerb at hline
  dsimp only at hline
  split at hline
  · exact leftAlone_edit hu (fun _ _ _ h => by cases h) hline Iff.rfl
  · exact leftAlone_makeWire hu
  · exact leftAlone_edit hu (fun _ _ _ h => by cases h) hline Iff.rfl
  · exact leftAlone_edit hu (fun _ _ _ h => by cases h) hline Iff.rfl
  · exact leftAlone_edit hu (fun _ _ _ h => by cases h) hline Iff.rfl
  · exact leftAlone_setTime hline Iff.rfl
  · exact leftAlone_setTime hline Iff.rfl
  · exact leftAlone_makeBias hu
  · exact iff_of_true (leftAlone_nothing (congrFun hline d) fun h => h) trivial
  · exact leftAlone_editNode hu
  · exact iff_of_false (not_leftAlone_onPool pause_none hline trivial) fun h => h
  · exact iff_of_false (not_leftAlone_onPool resume_none hline trivial) fun h => h
  · contradiction
  · exact leftAlone_initializeAudio hu
  · exact iff_of_true (leftAlone_loadTimeSeq hu) trivial
  · exact iff_of_true (leftAlone_unloadTimeSeq hu) trivial
  · exact iff_of_false (not_leftAlone_of_ok (congrFun hline d) trivial) fun h => h
  · exact iff_of_true (leftAlone_nothing (congrFun hline d) fun h => h) trivial
  · exact iff_of_true (leftAlone_nothing (congrFun hline d) fun h => h) trivial
  · have hwf : ¬ WellFormed p (cmd :: lptr) := by
      unfold WellFormed
      split
      all_goals first | exact fun h => h | (rename_i heq; cases heq; contradiction)
    have hchecked : Checked p fuel d (cmd :: lptr) := by
      unfold Checked
      split
      all_goals first | trivial | (rename_i heq; cases heq; contradiction)
    exact iff_of_true (leftAlone_refused (congrFun hline d) hwf) hchecked

/-- A line that is left alone leaves the engine uninitialised. -/
theorem LeftAlone.uninitialized (h : LeftAlone p fuel toRet d line) (hu : Uninitialized d)
    {r : Except KsiError Bool} (hrun : consume_line p fuel toRet line d = some (r, d')) :
    Uninitialized d' := hu.same ((leftAlone_iff_of_run hrun).mp h).1

/-- The loop over a file whose lines are left alone. -/
theorem consume_file_run {lines : List (List Char)}
    (h : Throughout (fileStep p fuel) (LeftAlone p fuel false) d lines) :
    ∃ r d', consume_file (consume_line p fuel false) lines d = some (r, d') ∧ SameEngine d d' := by
  induction lines generalizing d with
  | nil => exact ⟨_, d, rfl, .refl d⟩
  | cons l rest ih =>
      obtain ⟨⟨r, d₁, hrun, hsame, -⟩, hrest⟩ := h
      unfold consume_file
      rcases r with e | quit
      · exact ⟨_, d₁, bind_of_error hrun _, hsame⟩
      · cases quit with
        | true => exact ⟨_, d₁, bind_of_ok hrun _, hsame⟩
        | false =>
            have hstep : fileStep p fuel d l = some d₁ := by
              unfold fileStep
              rw [hrun]
            obtain ⟨r', d', hfile, hsame'⟩ := ih (hrest d₁ hstep)
            exact ⟨r', d', (bind_of_ok hrun _).trans hfile, hsame.trans hsame'⟩

/-- No line is an `i`. -/
def NoInit (_ : Nat) (_ : Bool) (_ : State) (line : List Char) : Prop := line.head? ≠ some 'i'

/-- The condition on each call. -/
def CallChecked (p : Platform) (fuel : Nat) (_ : Bool) (d : State) (line : List Char) : Prop :=
  Checked p fuel d line

theorem EachCall.call {G : Nat → Bool → State → List Char → Prop}
    (h : EachCall p G fuel toRet d line) : G fuel toRet d line := by
  cases fuel with
  | zero => exact h
  | succ fuel => exact h.1

/-- A line other than an `l` makes one call. -/
theorem eachCall_iff {G : Nat → Bool → State → List Char → Prop}
    (hl : ∀ lptr, line = 'l' :: lptr → p.file (path lptr) = none) :
    EachCall p G fuel toRet d line ↔ G fuel toRet d line := by
  cases fuel with
  | zero => exact Iff.rfl
  | succ fuel =>
      refine and_iff_left fun lptr lines hline hfile => ?_
      rw [hl lptr hline] at hfile
      cases hfile

theorem consume_line_load (fuel : Nat) (toRet : Bool) (lptr : List Char) :
    consume_line p fuel toRet ('l' :: lptr) =
      orError (p.file (path lptr)) ksiErrorFileSystem >>= fun lines =>
        match fuel with
        | 0 => Prog.fault
        | fuel + 1 => consume_file (consume_line p fuel false) lines >>= fun _ => pure false := by
  cases fuel <;> rfl

/-- An `l` for a file that cannot be opened. -/
theorem leftAlone_noFile (hfile : p.file (path lptr) = none) :
    LeftAlone p fuel toRet d ('l' :: lptr) := by
  have hrun : consume_line p fuel toRet ('l' :: lptr) d = some (.error ksiErrorFileSystem, d) := by
    rw [consume_line_load, hfile]
    rfl
  exact leftAlone_nothing hrun fun h => h

/-- An `l` for a file whose lines are left alone. -/
theorem leftAlone_load {lines : List (List Char)} (hfile : p.file (path lptr) = some lines)
    (h : Throughout (fileStep p fuel) (LeftAlone p fuel false) d lines) :
    LeftAlone p (fuel + 1) toRet d ('l' :: lptr) := by
  obtain ⟨r, d', hrun, hsame⟩ := consume_file_run h
  have hcase : consume_line p (fuel + 1) toRet ('l' :: lptr) d =
      (consume_file (consume_line p fuel false) lines >>= fun _ => pure false) d := by
    rw [consume_line_load, hfile, orError_some_bind]
  rcases r with e | a
  · exact (leftAlone_iff_of_run (hcase.trans (bind_of_error hrun _))).mpr ⟨hsame, fun h => h.elim⟩
  · exact (leftAlone_iff_of_run (hcase.trans (bind_of_ok hrun _))).mpr ⟨hsame, fun h => h.elim⟩

/-- A line that makes one call. -/
theorem leftAlone_iff_checked (hu : Uninitialized d) (hi : NoInit fuel toRet d line)
    (hl : ∀ lptr, line = 'l' :: lptr → p.file (path lptr) = none) :
    LeftAlone p fuel toRet d line ↔ Checked p fuel d line := by
  cases line with
  | nil =>
      refine iff_of_true (leftAlone_nothing (r := .ok false) ?_ fun h => h) trivial
      cases fuel <;> rfl
  | cons cmd lptr =>
      by_cases hcmd : cmd = 'l'
      · subst hcmd
        have hfile := hl lptr rfl
        exact iff_of_true (leftAlone_noFile hfile) fun _ => hfile
      · refine leftAlone_verb hu hcmd fun h => hi ?_
        rw [h]
        rfl

/-- **Every call for a line is left alone** exactly if each comes to a check. -/
theorem eachCall_leftAlone_iff (fuel : Nat) : ∀ {toRet : Bool} {d : State} {line : List Char},
    Uninitialized d → EachCall p NoInit fuel toRet d line →
    (EachCall p (LeftAlone p) fuel toRet d line ↔
      EachCall p (CallChecked p) fuel toRet d line) := by
  induction fuel with
  | zero =>
      intro toRet d line hu hno
      by_cases hload : ∃ lptr lines, line = 'l' :: lptr ∧ p.file (path lptr) = some lines
      · obtain ⟨lptr, lines, rfl, hfile⟩ := hload
        refine iff_of_false (not_leftAlone_of_none ?_) fun h => ?_
        · rw [consume_line_load, hfile]
          rfl
        · have hnone : p.file (path lptr) = none := h rfl
          rw [hfile] at hnone
          cases hnone
      · refine leftAlone_iff_checked hu hno fun lptr hline => ?_
        by_contra hfile
        obtain ⟨lines, hlines⟩ := Option.ne_none_iff_exists'.mp hfile
        exact hload ⟨lptr, lines, hline, hlines⟩
  | succ fuel ih =>
      intro toRet d line hu hno
      by_cases hload : ∃ lptr lines, line = 'l' :: lptr ∧ p.file (path lptr) = some lines
      · obtain ⟨lptr, lines, rfl, hfile⟩ := hload
        have hlines : Throughout (fileStep p fuel) (EachCall p (LeftAlone p) fuel false) d lines ↔
            Throughout (fileStep p fuel) (EachCall p (CallChecked p) fuel false) d lines := by
          refine throughout_congr Uninitialized (fun _ _ hs hno' => ih hs hno')
            (fun s l s' hs hno' hc hstep => ?_) lines hu (hno.2 lptr lines rfl hfile)
          have hleft := ((ih hs hno').mpr hc).call
          unfold fileStep at hstep
          split at hstep
          · rename_i hrun
            cases hstep
            exact hleft.uninitialized hs hrun
          · cases hstep
        constructor
        · rintro ⟨-, hfiles⟩
          refine ⟨nofun, fun lptr' lines' hline hfile' => ?_⟩
          cases hline
          cases hfile.symm.trans hfile'
          exact hlines.mp (hfiles lptr lines rfl hfile)
        · rintro ⟨-, hfiles⟩
          have hleft := hlines.mpr (hfiles lptr lines rfl hfile)
          refine ⟨leftAlone_load hfile (hleft.mono fun _ _ h => h.call),
            fun lptr' lines' hline hfile' => ?_⟩
          cases hline
          cases hfile.symm.trans hfile'
          exact hleft
      · have hone : ∀ lptr, line = 'l' :: lptr → p.file (path lptr) = none := by
          intro lptr hline
          by_contra hfile
          obtain ⟨lines, hlines⟩ := Option.ne_none_iff_exists'.mp hfile
          exact hload ⟨lptr, lines, hline, hlines⟩
        rw [eachCall_iff hone, eachCall_iff hone]
        exact leftAlone_iff_checked hu hno.call hone

/-! ### Sequences of lines -/

/-- A line from the caller, with what is outside of the program. -/
abbrev Input := Platform × Nat × List Char

/-- The state after a line. -/
def lineStep (toRet : Bool) (d : State) (a : Input) : Option State :=
  (consume_line a.1 a.2.1 toRet a.2.2 d).map (·.2)

/-- A property of every call that a sequence of lines makes. -/
def EveryCall (toRet : Bool) (G : Platform → Nat → Bool → State → List Char → Prop) (d : State)
    (lines : List Input) : Prop :=
  Throughout (lineStep toRet) (fun d a => EachCall a.1 (G a.1) a.2.1 toRet d a.2.2) d lines

/-- **An engine that nothing has initialised is left alone** by a sequence of lines exactly if
each line comes to a check. -/
theorem leftAlone_iff (toRet : Bool) (hu : Uninitialized d) {lines : List Input}
    (hno : EveryCall toRet (fun _ => NoInit) d lines) :
    EveryCall toRet LeftAlone d lines ↔ EveryCall toRet CallChecked d lines := by
  refine throughout_congr Uninitialized (fun _ a hs hno' => eachCall_leftAlone_iff a.2.1 hs hno')
    (fun s a s' hs hno' hc hstep => ?_) lines hu hno
  have hleft := ((eachCall_leftAlone_iff a.2.1 hs hno').mpr hc).call
  obtain ⟨⟨r, s₁⟩, hrun, rfl⟩ := Option.map_eq_some_iff.mp hstep
  exact hleft.uninitialized hs hrun

/-- No files and no numbers with a point. -/
def barePlatform : Platform := { bareWorld with
  roundTime := fun _ => 0
  unassigned := 0
  outside := fun _ => none }

/-- Memory that nothing has written to but `playing`. -/
def freshState : State where
  handler := { Handler.init { enginesAlive := 0, hangingPosts := 0 } 0 with
    session := { engine := { ksiEngineInit 0 with playing := -2 }, syncCmds := [] }
    playing := ksiEngineUninitialized }
  timeStamp := 0
  notRequireReset := true
  lockable := true
  strayed := false

/-- A new node, and the end of a time sequence. -/
theorem leftAlone_iff_twoLines : EveryCall true LeftAlone freshState
    [(barePlatform, 0, ['n', 'n', '1']), (barePlatform, 0, ['t', '0'])] := by
  refine (leftAlone_iff true ⟨rfl, rfl⟩ ?_).mpr ?_
  · exact ⟨nofun, fun _ _ => ⟨nofun, fun _ _ => trivial⟩⟩
  · exact ⟨fun _ => rfl, fun _ _ => ⟨trivial, fun _ _ => trivial⟩⟩

/-- **Setting the time** of an engine that nothing has initialised stores it. -/
theorem not_leftAlone : ¬ ∀ (toRet : Bool) (d : State) (lines : List Input), Uninitialized d →
    EveryCall toRet (fun _ => NoInit) d lines → EveryCall toRet LeftAlone d lines := by
  intro h
  have hu : Uninitialized freshState := ⟨rfl, rfl⟩
  have hleft := (h true freshState [(barePlatform, 0, ['.', '5'])] hu
    ⟨nofun, fun _ _ => trivial⟩).1
  have hscan : scanD ['5'] = none := (leftAlone_verb hu (by decide) (by decide)).mp hleft
  have hsome : (scanD ['5']).isSome = true := by decide
  rw [hscan] at hsome
  cases hsome

end Ksi.Cmd.Full
