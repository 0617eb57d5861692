/-
Which `w` and `b` lines are read by their grammar.

`%n` assigns `consumed` only if the `x` is there, and the number of conversions does not say
whether it is.  So a line without the `x` moves the read position by whatever `consumed`
holds, and a `w` does so before it looks at that number at all.  With the `x`, a line that
has no number after it is refused as such only where the port is found: the lookup comes
first.  `readExactly_iff` says that there is nothing else.
-/
import Ksi.Proofs.Cmd.Reading

namespace Ksi.Cmd.Full

open Dag Pool Prog KsiError Playing

variable {p : Platform} {d d' : State} {fuel : Nat} {toRet : Bool} {lptr line : List Char}
  {id port : Int} {c : KsiData → Call}

/-! ### What a line spells -/

/-- The edit with the number at the read position. -/
def callAt (p : Platform) (d : State) (id port : Int) (c : KsiData → Call) (l : List Char) :
    Option Call :=
  match portType d id port with
  | some (.ok t) => (numberAt p t l).map c
  | _ => none

/-- The edit that a line asks for, with the integers and the number from the places that the
grammar gives them. -/
def callOf (p : Platform) (d : State) : List Char → Option Call
  | 'w' :: lptr => (scanWire lptr).bind fun wire => (scanChar 'x' wire.2).bind fun l =>
      callAt p d wire.1.2.1 wire.1.2.2
        (.makeWire wire.1.1.1 wire.1.1.2 wire.1.2.1 wire.1.2.2) l
  | 'b' :: lptr => (scanPort lptr).bind fun des => (scanChar 'x' des.2).bind fun l =>
      callAt p d des.1.1 des.1.2 (.makeBias des.1.1 des.1.2) l
  | _ => none

/-- A line changes the engine only as the edit that it asks for does, and one that is not a
command is refused as such: the engine is left, and the read position not moved by an
unassigned variable. -/
structure ReadExactly (p : Platform) (fuel : Nat) (toRet : Bool) (d : State)
    (line : List Char) : Prop where
  made : ∀ r d', consume_line p fuel toRet line d = some (r, d') → ¬ SameEngine d d' →
    WellFormed p line ∧ ∃ call r', callOf p d line = some call ∧
      locked (request call) d = some (r', d')
  refused : ¬ WellFormed p line →
    consume_line p fuel toRet line d = some (.error ksiErrorSyntax, d)

/-- There is an `x`, and after it a number, or else the port is found. -/
def Spelt (p : Platform) (d : State) (id port : Int) (rest : Option (List Char)) : Prop :=
  ∃ l, rest = some l ∧ (IsNumber p l ∨ ∃ t, portType d id port = some (.ok t))

/-- The integers of a `w` are all there, and then what has to follow them; a `b` may lack
them. -/
def ReadsOn (p : Platform) (d : State) : List Char → Prop
  | 'w' :: lptr => ∃ wire, scanWire lptr = some wire ∧
      Spelt p d wire.1.2.1 wire.1.2.2 (scanChar 'x' wire.2)
  | 'b' :: lptr => ∀ des, scanPort lptr = some des →
      Spelt p d des.1.1 des.1.2 (scanChar 'x' des.2)
  | _ => True

/-! ### The history variable

Nothing after the read position has been moved touches it. -/

theorem onHandler_strayed {α : Type} {x : Cmd.Line α} {r : Except KsiError α}
    (hrun : onHandler x d = some (r, d')) : d'.strayed = d.strayed := by
  obtain ⟨res, -, heq⟩ := Option.map_eq_some_iff.mp hrun
  cases heq
  rfl

theorem locked_strayed {α : Type} {x : Cmd.Line α} {r : Except KsiError α}
    (hrun : locked x d = some (r, d')) : d'.strayed = d.strayed := by
  unfold locked at hrun
  split at hrun
  · exact onHandler_strayed hrun
  · cases hrun

/-- What returns a value or an error from a part returns in the same state. -/
theorem bind_pure_run {α β : Type} {x : Line α} {b : β} {r : Except KsiError β}
    (hrun : (x >>= fun _ => (pure b : Line β)) d = some (r, d')) : ∃ r', x d = some (r', d') := by
  cases hx : x d with
  | none =>
      rw [bind_of_none hx] at hrun
      cases hrun
  | some res =>
      obtain ⟨e | a, d₁⟩ := res
      · rw [bind_of_error hx] at hrun
        cases hrun
        exact ⟨_, rfl⟩
      · rw [bind_of_ok hx] at hrun
        cases hrun
        exact ⟨_, rfl⟩

theorem portLine_strayed (hlock : d.lockable = true) {text : Option (List Char)}
    {r : Except KsiError Unit} (hrun : portLine p id port c text d = some (r, d')) :
    d'.strayed = d.strayed := by
  rw [portLine_run hlock] at hrun
  split at hrun
  · cases hrun
  · cases hrun
    rfl
  · split at hrun
    · cases hrun
    · split at hrun
      · cases hrun
        rfl
      · obtain ⟨r', hrequest⟩ := bind_pure_run hrun
        exact locked_strayed hrequest

/-! ### From the read position on -/

/-- A line that is not a command and moves the read position by an unassigned variable. -/
theorem not_readExactly_of_strayed (hs : d.strayed = false) (hwf : ¬ WellFormed p line)
    (hstrays : ∀ r d', consume_line p fuel toRet line d = some (r, d') → d'.strayed = true) :
    ¬ ReadExactly p fuel toRet d line := by
  intro h
  have hstrayed := hstrays _ _ (h.refused hwf)
  rw [hs] at hstrayed
  cases hstrayed

/-- A line whose `x` is missing does so. -/
theorem strayed_of_noText (hlock : d.lockable = true)
    (hline : consume_line p fuel toRet line d =
      ((advance p lptr none >>= portLine p id port c) >>= fun _ => pure false) d) :
    ∀ r d', consume_line p fuel toRet line d = some (r, d') → d'.strayed = true := by
  intro r d' hrun
  have hmoved : advance p lptr none d =
      some (.ok (textAt p lptr p.unassigned), { d with strayed := true }) := rfl
  rw [hline] at hrun
  obtain ⟨r', hpart⟩ := bind_pure_run hrun
  rw [bind_of_ok hmoved] at hpart
  exact portLine_strayed (d := { d with strayed := true }) hlock hpart

/-- A line that has its `x`. -/
theorem readExactly_text (hlock : d.lockable = true) {l : List Char}
    (hline : consume_line p fuel toRet line d =
      (portLine p id port c (some l) >>= fun _ => pure false) d)
    (hwf : WellFormed p line ↔ IsNumber p l) (hcall : callOf p d line = callAt p d id port c l) :
    ReadExactly p fuel toRet d line ↔ IsNumber p l ∨ ∃ t, portType d id port = some (.ok t) := by
  have hpart := portLine_run (p := p) hlock id port c (some l)
  cases htype : portType d id port with
  | none =>
      rw [htype] at hpart
      rw [bind_of_none hpart] at hline
      constructor
      · intro h
        by_contra hno
        have hrun := h.refused fun hw => hno (.inl (hwf.mp hw))
        rw [hline] at hrun
        cases hrun
      · rintro (hnumber | ⟨t, ht⟩)
        · refine ⟨fun r d' hrun => ?_, fun hw => absurd (hwf.mpr hnumber) hw⟩
          rw [hline] at hrun
          cases hrun
        · cases ht
  | some r =>
      rw [htype] at hpart
      cases r with
      | error e =>
          rw [bind_of_error hpart] at hline
          constructor
          · intro h
            by_contra hno
            have hrun := h.refused fun hw => hno (.inl (hwf.mp hw))
            rw [hline] at hrun
            cases hrun
            rcases portType_error htype with he | he
            · cases he
            · cases he
          · rintro (hnumber | ⟨t, ht⟩)
            · refine ⟨fun r d' hrun hsame => ?_, fun hw => absurd (hwf.mpr hnumber) hw⟩
              rw [hline] at hrun
              cases hrun
              exact absurd (.refl d) hsame
            · cases ht
      | ok t =>
          refine iff_of_true ?_ (.inr ⟨t, rfl⟩)
          unfold callAt at hcall
          rw [htype] at hcall
          dsimp only at hpart hcall
          cases hnumber : numberAt p t l with
          | none =>
              rw [hnumber] at hpart
              rw [bind_of_error hpart] at hline
              refine ⟨fun r d' hrun hsame => ?_, fun _ => hline⟩
              rw [hline] at hrun
              cases hrun
              exact absurd (.refl d) hsame
          | some g =>
              have hw : WellFormed p line := hwf.mpr (isNumber_of_numberAt hnumber)
              rw [hnumber] at hpart hcall
              refine ⟨fun r d' hrun _ => ?_, fun hnot => absurd hw hnot⟩
              rw [hline] at hrun
              obtain ⟨r₁, hrun₁⟩ := bind_pure_run hrun
              rw [hpart] at hrun₁
              obtain ⟨r₂, hrequest⟩ := bind_pure_run hrun₁
              exact ⟨hw, _, _, hcall, hrequest⟩

/-- A line that looks up a port, from the read position on. -/
theorem readExactly_port (hlock : d.lockable = true) (hs : d.strayed = false)
    {rest : Option (List Char)}
    (hline : consume_line p fuel toRet line d =
      ((advance p lptr rest >>= portLine p id port c) >>= fun _ => pure false) d)
    (hwf : WellFormed p line ↔ ∃ l, rest = some l ∧ IsNumber p l)
    (hcall : callOf p d line = rest.bind (callAt p d id port c)) :
    ReadExactly p fuel toRet d line ↔ Spelt p d id port rest := by
  cases rest with
  | none =>
      refine iff_of_false ?_ ?_
      · refine not_readExactly_of_strayed hs (fun hw => ?_) (strayed_of_noText hlock hline)
        obtain ⟨l, hl, -⟩ := hwf.mp hw
        cases hl
      · rintro ⟨l, hl, -⟩
        cases hl
  | some l =>
      have hwf' : WellFormed p line ↔ IsNumber p l := by
        rw [hwf]
        constructor
        · rintro ⟨l', hl, hnumber⟩
          cases hl
          exact hnumber
        · exact fun hnumber => ⟨l, rfl, hnumber⟩
      rw [readExactly_text hlock hline hwf' hcall]
      constructor
      · exact fun h => ⟨l, rfl, h⟩
      · rintro ⟨l', hl, h⟩
        cases hl
        exact h

/-! ### The two commands -/

theorem readExactly_makeWire (hlock : d.lockable = true) (hs : d.strayed = false) :
    ReadExactly p fuel toRet d ('w' :: lptr) ↔ ReadsOn p d ('w' :: lptr) := by
  have hline := consume_line_w (p := p) fuel toRet lptr
  have hcall : callOf p d ('w' :: lptr) = (scanWire lptr).bind _ := rfl
  cases hscan : scanWire lptr with
  | none =>
      rw [makeWire_of_none hscan] at hline
      refine iff_of_false (not_readExactly_of_strayed hs ?_ ?_) ?_
      · rintro ⟨wire, l, hwire, -⟩
        rw [hscan] at hwire
        cases hwire
      · intro r d' hrun
        rw [hline] at hrun
        cases hrun
        rfl
      · rintro ⟨wire, hwire, -⟩
        rw [hscan] at hwire
        cases hwire
  | some wire =>
      obtain ⟨⟨⟨srcId, srcPort⟩, desId, desPort⟩, rest⟩ := wire
      rw [makeWire_of_some hscan] at hline
      rw [hscan] at hcall
      have hwf : WellFormed p ('w' :: lptr) ↔ ∃ l, scanChar 'x' rest = some l ∧ IsNumber p l := by
        show IsWire p lptr ↔ _
        unfold IsWire
        simp [hscan]
      rw [readExactly_port hlock hs (congrFun hline d) hwf hcall]
      show _ ↔ ∃ wire, _
      simp [hscan]

theorem readExactly_makeBias (hlock : d.lockable = true) (hs : d.strayed = false) :
    ReadExactly p fuel toRet d ('b' :: lptr) ↔ ReadsOn p d ('b' :: lptr) := by
  have hline := consume_line_b (p := p) fuel toRet lptr
  have hcall : callOf p d ('b' :: lptr) = (scanPort lptr).bind _ := rfl
  cases hscan : scanPort lptr with
  | none =>
      rw [makeBias_of_none hscan] at hline
      have hrun : consume_line p fuel toRet ('b' :: lptr) d = some (.error ksiErrorSyntax, d) := by
        rw [hline]
        rfl
      refine iff_of_true ⟨fun r d' hrun' hsame => ?_, fun _ => hrun⟩ ?_
      · rw [hrun] at hrun'
        cases hrun'
        exact absurd (.refl d) hsame
      · intro des hdes
        rw [hscan] at hdes
        cases hdes
  | some des =>
      obtain ⟨⟨id, port⟩, rest⟩ := des
      rw [makeBias_of_some hscan] at hline
      rw [hscan] at hcall
      have hwf : WellFormed p ('b' :: lptr) ↔ ∃ l, scanChar 'x' rest = some l ∧ IsNumber p l := by
        show IsBias p lptr ↔ _
        unfold IsBias
        simp [hscan]
      rw [readExactly_port hlock hs (congrFun hline d) hwf hcall]
      show _ ↔ ∀ des, _
      simp [hscan]

/-- **Which lines are read by their grammar**, on an engine that has been initialised. -/
theorem readExactly_iff (hlock : d.lockable = true) (hs : d.strayed = false) {cmd : Char}
    (hcmd : cmd = 'w' ∨ cmd = 'b') :
    ReadExactly p fuel toRet d (cmd :: lptr) ↔ ReadsOn p d (cmd :: lptr) := by
  rcases hcmd with rfl | rfl
  · exact readExactly_makeWire hlock hs
  · exact readExactly_makeBias hlock hs

/-- `consumed` holds 2 before it is assigned; there are no files and no numbers with a
point. -/
def twoPlatform : Platform := { bareWorld with
  roundTime := fun _ => 0
  unassigned := 2
  outside := fun _ => none }

/-- An engine that an `i` has initialised. -/
def initialState : State where
  handler := Handler.init { enginesAlive := 0, hangingPosts := 0 } 64
  timeStamp := 0
  notRequireReset := true
  lockable := true
  strayed := false

/-- The engine after a line. -/
def lineEnd (p : Platform) (d : State) (line : List Char) : State :=
  match consume_line p 0 true line d with
  | some (_, d') => d'
  | none => d

/-- An ADSR and a Wavetable. -/
def twoNodes : State :=
  lineEnd twoPlatform (lineEnd twoPlatform initialState ['n', 'n', '5']) ['n', 'n', '4']

/-- `w0:1>1:1x1`, from the end of the envelope to the gate. -/
def gateLine : List Char := ['w', '0', ':', '1', '>', '1', ':', '1', 'x', '1']

/-- The wire is made. -/
theorem readExactly_iff_wire :
    ReadExactly twoPlatform 0 true twoNodes gateLine ∧
      ((lineEnd twoPlatform twoNodes gateLine).handler.session.engine.graph.heap 1).map
          (fun n => n.inputs.map (·.entries)) =
        some [[], [{ src := some 0, srcPort := 1, gain := 1 }], [], []] := by
  refine ⟨(readExactly_iff (by decide +kernel) (by decide +kernel) (.inl rfl)).mpr ?_, ?_⟩
  · refine ⟨(((0, 1), 1, 1), ['x', '1']), by decide, ['1'], by decide, ?_⟩
    exact .inl (.inr (by decide))
  · decide +kernel

/-- **A bias without the `x`** is made: after `b0:1` the 1 is the port, and is read again
as the bias. -/
theorem not_readExactly :
    ¬ ReadExactly twoPlatform 0 true (lineEnd twoPlatform initialState ['n', 'n', '4'])
      ['b', '0', ':', '1'] := by
  intro h
  have hwf : ¬ WellFormed twoPlatform ['b', '0', ':', '1'] := by
    rintro ⟨des, l, hdes, hx, -⟩
    have hend : (scanPort ['0', ':', '1']).bind (fun des => scanChar 'x' des.2) = none := by decide
    rw [hdes, Option.bind_some, hx] at hend
    cases hend
  have hrun := congrArg (Option.map Prod.fst) (h.refused hwf)
  revert hrun
  decide +kernel

end Ksi.Cmd.Full
