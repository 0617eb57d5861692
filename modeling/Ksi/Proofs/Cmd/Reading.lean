/-
What a line reads, and the part of a `w` and of a `b` that is the same.

`WellFormed` is the grammar of the commands.  From the read position on a `w` and a `b` look
up a port, read a number in the format for its type and make an edit: `portLine`.
-/
import Ksi.Proofs.Cmd
import Ksi.Cmd.Full

namespace Ksi.Cmd.Full

open Dag Pool Prog KsiError Playing

variable {p : Platform} {d d' : State} {lptr : List Char}

/-- The engine and the pool are the same. -/
structure SameEngine (d d' : State) : Prop where
  session : d'.handler.session = d.handler.session
  other : d'.handler.other = d.handler.other
  playing : d'.handler.playing = d.handler.playing
  wp : d'.handler.wp = d.handler.wp
  epoch : d'.handler.epoch = d.handler.epoch
  timeStamp : d'.timeStamp = d.timeStamp
  notRequireReset : d'.notRequireReset = d.notRequireReset
  lockable : d'.lockable = d.lockable

theorem SameEngine.refl (d : State) : SameEngine d d := ⟨rfl, rfl, rfl, rfl, rfl, rfl, rfl, rfl⟩

theorem SameEngine.trans {d₁ d₂ d₃ : State} (h : SameEngine d₁ d₂) (h' : SameEngine d₂ d₃) :
    SameEngine d₁ d₃ :=
  ⟨h'.session.trans h.session, h'.other.trans h.other, h'.playing.trans h.playing,
    h'.wp.trans h.wp, h'.epoch.trans h.epoch, h'.timeStamp.trans h.timeStamp,
    h'.notRequireReset.trans h.notRequireReset, h'.lockable.trans h.lockable⟩

theorem SameEngine.symm (h : SameEngine d d') : SameEngine d' d :=
  ⟨h.session.symm, h.other.symm, h.playing.symm, h.wp.symm, h.epoch.symm, h.timeStamp.symm,
    h.notRequireReset.symm, h.lockable.symm⟩

/-- A part that has returned and left the handler's engine. -/
theorem sameEngine_handler {h : Handler} (hsession : h.session = d.handler.session)
    (hother : h.other = d.handler.other) (hplaying : h.playing = d.handler.playing)
    (hwp : h.wp = d.handler.wp) (hepoch : h.epoch = d.handler.epoch) :
    SameEngine d { d with handler := h } :=
  ⟨hsession, hother, hplaying, hwp, hepoch, rfl, rfl, rfl⟩

/-! ### Which lines are commands -/

/-- A gain or a bias. -/
def IsNumber (p : Platform) (l : List Char) : Prop :=
  (p.scanFloat l).isSome = true ∨ (scanD l).isSome = true

/-- `w<int>:<int>><int>:<int>x<number>`, without the `w`. -/
def IsWire (p : Platform) (lptr : List Char) : Prop :=
  ∃ wire l, scanWire lptr = some wire ∧ scanChar 'x' wire.2 = some l ∧ IsNumber p l

/-- `b<int>:<int>x<number>`, without the `b`. -/
def IsBias (p : Platform) (lptr : List Char) : Prop :=
  ∃ des l, scanPort lptr = some des ∧ scanChar 'x' des.2 = some l ∧ IsNumber p l

/-- A command with all that it takes; not an `h`, a `q`, an `l` or a blank line. -/
def WellFormed (p : Platform) : List Char → Prop
  | 'n' :: lptr => (scanType lptr).isSome = true
  | 'w' :: lptr => IsWire p lptr
  | 'd' :: lptr => (scanNodes lptr).isSome = true
  | 'r' :: lptr => (scanD lptr).isSome = true
  | 'u' :: lptr => (scanWire lptr).isSome = true
  | '.' :: lptr => (scanD lptr).isSome = true
  | '-' :: lptr => (p.scanFloat lptr).isSome = true
  | 'b' :: lptr => IsBias p lptr
  | 'e' :: lptr => (scanArgs lptr).isSome = true
  | 'i' :: lptr => (scanSizes lptr).isSome = true
  | 'a' :: lptr => lptr = [] ∨ lptr.head? = some '\n'
  | 't' :: lptr => (scanD lptr).isSome = true
  | 'P' :: _ | 'R' :: _ | 'o' :: _ | '>' :: _ => True
  | _ => False

/-! ### Numbers -/

/-- What is read as a number for a port of the type. -/
def numberAt (p : Platform) (t : PortType) (l : List Char) : Option KsiData :=
  if t &&& 0x7 = ksiNodePortTypeFloat then p.scanFloat l
  else (scanD l).map fun gain => BitVec.ofInt 32 gain.1

/-- The result of INPUT_G. -/
def numberRead (p : Platform) (t : PortType) (l : List Char) : Except KsiError KsiData :=
  match numberAt p t l with
  | some g => .ok g
  | none => .error ksiErrorSyntax

theorem inputG_run (t : PortType) (l : List Char) :
    onHandler (inputG p.toWorld t (some l)) d = some (numberRead p t l, d) := by
  show ((if t &&& 0x7 = ksiNodePortTypeFloat then Prog.orError (p.scanFloat l) ksiErrorSyntax
    else Prog.orError (scanD l) ksiErrorSyntax >>= fun gain => pure (BitVec.ofInt 32 gain.1))
      d.handler).map _ = _
  unfold numberRead numberAt
  split
  · cases p.scanFloat l <;> rfl
  · cases scanD l <;> rfl

theorem isNumber_of_numberAt {t : PortType} {l : List Char} {g : KsiData}
    (h : numberAt p t l = some g) : IsNumber p l := by
  unfold numberAt at h
  split at h
  · left
    rw [h]
    rfl
  · right
    rw [← Option.isSome_map, h]
    rfl

/-! ### Parts of a line -/

theorem locked_of_not {α : Type} (hlock : ¬ d.lockable = true) (x : Cmd.Line α) :
    locked x d = none := if_neg hlock

/-- Moving the read position. -/
theorem advance_run (rest : Option (List Char)) :
    ∃ d', advance p lptr rest d = some (.ok (rest.or (textAt p lptr p.unassigned)), d') ∧
      d'.handler = d.handler ∧ SameEngine d d' := by
  cases rest with
  | some l => exact ⟨d, rfl, rfl, .refl d⟩
  | none => exact ⟨{ d with strayed := true }, rfl, rfl, rfl, rfl, rfl, rfl, rfl, rfl, rfl, rfl⟩

/-- A lookup finds no other error than that there is no such port. -/
theorem getInputType_errors (id port : Int) :
    Errors (fun err => err = ksiErrorIdNotFound ∨ err = ksiErrorPortNotFound)
      (ksiEngineGetInputType id port) := by
  have hK := errors_compositional (σ := Engine)
    (fun err => err = ksiErrorIdNotFound ∨ err = ksiErrorPortNotFound)
  exact hK.bind (hK.bind (hK.read _) fun _ => hK.orError _ (.inl rfl)) fun _ =>
    hK.bind (hK.read _) fun _ => hK.bind (hK.require (.inr rfl)) fun _ => hK.read _

/-- What the lookup of a port finds. -/
def portType (d : State) (id port : Int) : Option (Except KsiError PortType) :=
  (ksiEngineGetInputType id port d.handler.session.engine).map (·.1)

theorem portType_error {id port : Int} {err : KsiError}
    (h : portType d id port = some (.error err)) :
    err = ksiErrorIdNotFound ∨ err = ksiErrorPortNotFound := by
  obtain ⟨⟨r, e⟩, hget, rfl⟩ := Option.map_eq_some_iff.mp h
  exact of_wp_error (getInputType_errors id port _) hget

/-- A lookup leaves the state. -/
theorem lookup_run (hlock : d.lockable = true) (id port : Int) :
    locked (onEngine (ksiEngineGetInputType id port)) d = (portType d id port).map
      fun r => (r, d) := by
  have hlooks := getInputType_looks id port d.handler.session.engine
  unfold locked onHandler onEngine portType
  unfold Prog.wp at hlooks
  rw [if_pos hlock]
  cases hget : ksiEngineGetInputType id port d.handler.session.engine with
  | none => rfl
  | some r =>
      rw [hget] at hlooks
      obtain ⟨e | t, engine⟩ := r
      · obtain ⟨rfl, -⟩ := hlooks
        rfl
      · obtain rfl : engine = d.handler.session.engine := hlooks
        rfl

/-- The lookup of a port, the number at the read position, and the edit. -/
def portLine (p : Platform) (id port : Int) (c : KsiData → Call) (text : Option (List Char)) :
    Line Unit :=
  locked (onEngine (ksiEngineGetInputType id port)) >>= fun t =>
    onHandler (inputG p.toWorld t text) >>= fun g => locked (request (c g)) >>= fun _ => pure ()

/-- What the part does: a lookup without a port to find returns its error, and no number is
read then. -/
theorem portLine_run (hlock : d.lockable = true) (id port : Int) (c : KsiData → Call)
    (text : Option (List Char)) :
    portLine p id port c text d =
      match portType d id port with
      | none => none
      | some (.error e) => some (.error e, d)
      | some (.ok t) =>
          match text with
          | none => none
          | some l =>
              match numberAt p t l with
              | none => some (.error ksiErrorSyntax, d)
              | some g => (locked (request (c g)) >>= fun _ => pure ()) d := by
  have hlookup := lookup_run hlock id port
  unfold portLine
  cases htype : portType d id port with
  | none =>
      rw [htype] at hlookup
      exact bind_of_none hlookup _
  | some r =>
      rw [htype] at hlookup
      cases r with
      | error e => exact bind_of_error hlookup _
      | ok t =>
          rw [bind_of_ok hlookup]
          cases text with
          | none => rfl
          | some l =>
              have hread := inputG_run (p := p) (d := d) t l
              unfold numberRead at hread
              dsimp only
              cases hnumber : numberAt p t l with
              | none =>
                  rw [hnumber] at hread
                  exact bind_of_error hread _
              | some g =>
                  rw [hnumber] at hread
                  exact bind_of_ok hread _

theorem makeWire_of_none (hscan : scanWire lptr = none) :
    makeWire p lptr = advance p lptr none >>= fun _ => Prog.error ksiErrorSyntax := by
  unfold Full.makeWire
  dsimp only
  rw [hscan]
  rfl

theorem makeWire_of_some {srcId srcPort desId desPort : Int} {rest : List Char}
    (hscan : scanWire lptr = some (((srcId, srcPort), desId, desPort), rest)) :
    makeWire p lptr = advance p lptr (scanChar 'x' rest) >>=
      portLine p desId desPort (.makeWire srcId srcPort desId desPort) := by
  unfold Full.makeWire
  dsimp only
  rw [hscan]
  rfl

theorem makeBias_of_none (hscan : scanPort lptr = none) :
    makeBias p lptr = Prog.error ksiErrorSyntax := by
  unfold Full.makeBias
  rw [hscan]
  rfl

theorem makeBias_of_some {id port : Int} {rest : List Char}
    (hscan : scanPort lptr = some ((id, port), rest)) :
    makeBias p lptr = advance p lptr (scanChar 'x' rest) >>= portLine p id port
      (.makeBias id port) := by
  unfold Full.makeBias
  rw [hscan]
  rfl

/-- A line other than an `l` is a case of the switch. -/
theorem consume_line_verb {c : Char} (hc : c ≠ 'l') (fuel : Nat) (toRet : Bool) (lptr : List Char) :
    consume_line p fuel toRet (c :: lptr) = consumeVerb p toRet c lptr := by
  rw [consume_line.eq_def]
  split
  · contradiction
  · simp_all
  · simp_all

theorem consume_line_w (fuel : Nat) (toRet : Bool) (lptr : List Char) :
    consume_line p fuel toRet ('w' :: lptr) = makeWire p lptr >>= fun _ => pure false :=
  consume_line_verb (by decide) fuel toRet lptr

theorem consume_line_b (fuel : Nat) (toRet : Bool) (lptr : List Char) :
    consume_line p fuel toRet ('b' :: lptr) = makeBias p lptr >>= fun _ => pure false :=
  consume_line_verb (by decide) fuel toRet lptr

end Ksi.Cmd.Full
