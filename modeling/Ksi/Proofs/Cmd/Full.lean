/-
The command lines on an engine that has been initialised.

They do what `Ksi.Cmd.Handler` says: `Agrees` relates the two states, and each part of a
line keeps it.
-/
import Ksi.Proofs.Cmd.Reading

namespace Ksi.Cmd.Full

open Dag Pool Prog Runs KsiError Playing

variable {p : Platform} {d d' : State} {err : KsiError} {lptr : List Char} {toRet : Bool}

/-! ### An initialised engine -/

/-- The state has that of the handler, and its lock has been set up. -/
structure Agrees (err : KsiError) (h : Handler) (d : State) : Prop where
  handler : d.handler = h
  lockable : d.lockable = true
  sound : Sound err h

theorem simulates_onHandler {α : Type} {x : Cmd.Line α} (hx : Keeps (Sound err) x) :
    Simulates (Agrees err) x (onHandler x) := by
  intro h d r h' hR hrun
  have hfull : onHandler x d = some (r, { d with handler := h' }) := by
    unfold onHandler
    rw [hR.handler, hrun]
    rfl
  exact ⟨_, hfull, rfl, hR.lockable, hx.result hR.sound hrun⟩

theorem simulates_locked {α : Type} {x : Cmd.Line α} (hx : Keeps (Sound err) x) :
    Simulates (Agrees err) x (locked x) := by
  intro h d r h' hR hrun
  have hlocked : locked x d = onHandler x d := if_pos hR.lockable
  rw [hlocked]
  exact simulates_onHandler hx h d r h' hR hrun

theorem simulates_request (c : Call) : Simulates (Agrees err) (request c) (locked (request c)) :=
  simulates_locked (request_sound c)

theorem simulates_setIdRet (toRet : Bool) (id : Int) :
    Simulates (Agrees err) (setIdRet toRet id) (onHandler (setIdRet toRet id)) :=
  simulates_onHandler (setIdRet_sound toRet id)

/-- The lines that make an edit. -/
theorem simulates_edit {α : Type} (o : Option α) (c : α → Call) :
    Simulates (Agrees err)
      (orError o ksiErrorSyntax >>= fun a => request (c a) >>= fun _ => pure ())
      (orError o ksiErrorSyntax >>= fun a => locked (request (c a)) >>= fun _ => pure ()) :=
  (Simulates.orError o _).bind fun a => (simulates_request (c a)).bind fun _ => .pure ()

/-- Moving the read position leaves the rest of the state. -/
theorem agrees_advance (rest : Option (List Char)) {h : Handler} (hR : Agrees err h d) :
    ∃ text d', advance p lptr rest d = some (.ok text, d') ∧ Agrees err h d' := by
  cases rest with
  | some text => exact ⟨_, d, rfl, hR⟩
  | none => exact ⟨_, { d with strayed := true }, rfl, hR.handler, hR.lockable, hR.sound⟩

/-- The lines that read a gain or a bias for the port; where the x is missing, the handler's
line has no result. -/
theorem simulates_portLine {id port : Int} {rest text : Option (List Char)} (c : KsiData → Call)
    (htext : ∀ l, rest = some l → text = some l) :
    Simulates (Agrees err)
      (onEngine (ksiEngineGetInputType id port) >>= fun t => inputG p.toWorld t rest >>= fun g =>
        request (c g) >>= fun _ => pure ()) (portLine p id port c text) := by
  have hlookup : Simulates (Agrees err) (onEngine (ksiEngineGetInputType id port))
      (locked (onEngine (ksiEngineGetInputType id port))) :=
    simulates_locked (onEngine_sound (keepsEngine_of_same (getInputType_same id port)))
  refine hlookup.bind fun t => ?_
  have hgain : Simulates (Agrees err) (inputG p.toWorld t rest)
    (onHandler (inputG p.toWorld t text)) := by
    cases rest with
    | none => exact .fault _
    | some l =>
        rw [htext l rfl]
        exact simulates_onHandler ((lineWalks_sound err).inputG t _)
  exact hgain.bind fun g => (simulates_request (c g)).bind fun _ => .pure ()

/-- The line from the read position on. -/
theorem simulates_advance {id port : Int} (rest : Option (List Char)) (c : KsiData → Call) :
    Simulates (Agrees err)
      (onEngine (ksiEngineGetInputType id port) >>= fun t => inputG p.toWorld t rest >>= fun g =>
        request (c g) >>= fun _ => pure ()) (advance p lptr rest >>= portLine p id port c) := by
  cases rest with
  | none =>
      exact .stutter (fun h d hR => agrees_advance none hR) fun _ => simulates_portLine c nofun
  | some l =>
      show Simulates _ _ (portLine p id port c (some l))
      exact simulates_portLine c fun _ h => h

theorem simulates_makeWire :
    Simulates (Agrees err) (Cmd.makeWire p.toWorld lptr) (makeWire p lptr) := by
  cases hscan : scanWire lptr with
  | none =>
      rw [makeWire_of_none hscan]
      unfold Cmd.makeWire
      rw [hscan, orError_none_bind]
      exact .stutter (fun h d hR => agrees_advance none hR) fun _ => .error _
  | some wire =>
      obtain ⟨⟨⟨srcId, srcPort⟩, desId, desPort⟩, rest⟩ := wire
      rw [makeWire_of_some hscan]
      unfold Cmd.makeWire
      rw [hscan, orError_some_bind]
      exact simulates_advance _ _

theorem simulates_makeBias :
    Simulates (Agrees err) (Cmd.makeBias p.toWorld lptr) (makeBias p lptr) := by
  cases hscan : scanPort lptr with
  | none =>
      rw [makeBias_of_none hscan]
      unfold Cmd.makeBias
      rw [hscan, orError_none_bind]
      exact .error _
  | some des =>
      obtain ⟨⟨id, port⟩, rest⟩ := des
      rw [makeBias_of_some hscan]
      unfold Cmd.makeBias
      rw [hscan, orError_some_bind]
      exact simulates_advance _ _

theorem simulates_playing : Simulates (Agrees err) (Prog.read fun h => some h.playing)
    (onHandler (Prog.read fun h => some h.playing)) :=
  simulates_onHandler ((sound_compositional err).read _)

theorem simulates_stop : Simulates (Agrees err) Cmd.stop stop :=
  simulates_playing.bind fun _ =>
    .when (simulates_locked (onPool_sound fun _ _ _ => nofun))

theorem simulates_destroy : Simulates (Agrees err)
    (Prog.modify fun h => h.put (ksiEngineDestroy h.playing h.wp))
    (locked (Prog.modify fun h => h.put (ksiEngineDestroy h.playing h.wp))) := by
  refine simulates_locked (.modify fun h hs => hs.put ?_)
  unfold ksiEngineDestroy impl_ksiEngineStop
  split <;> nofun

theorem simulates_init (fb : Int) : Simulates (Agrees err)
    (Prog.modify fun h => h.fresh fb) (init fb) := by
  rintro h d r h' ⟨rfl, -, hsound⟩ hrun
  cases hrun
  exact ⟨_, rfl, rfl, rfl, Registered.empty, Registered.empty, rfl, nofun, hsound.err⟩

theorem simulates_initializeEngine :
    Simulates (Agrees err) (Cmd.initializeEngine lptr) (initializeEngine lptr) := by
  unfold Cmd.initializeEngine Full.initializeEngine
  refine (Simulates.orError _ _).bind fun sizes => ?_
  have hrestart : Simulates (Agrees err) (restart sizes.1)
      (stop >>= fun _ => locked (Prog.modify fun h => h.put (ksiEngineDestroy h.playing h.wp)) >>=
        fun _ => init sizes.1) :=
    simulates_stop.bind fun _ => simulates_destroy.bind fun _ => simulates_init _
  intro h d r h' hR hrun
  obtain ⟨d', hd', hR'⟩ := hrestart h d r h' hR hrun
  refine ⟨d', ?_, hR'⟩
  have hplaying : d.handler.playing ≠ ksiEngineUninitialized := hR.handler ▸ hR.sound.initialised
  -- the branch for an engine that has been initialised
  have hwhen : ∀ x : Line Unit, (onHandler (Prog.read fun h => some h.playing) >>= fun playing =>
      Prog.when (playing ≠ ksiEngineUninitialized) x >>= fun _ => init sizes.1) d =
        (x >>= fun _ => init sizes.1) d := by
    intro x
    show (Prog.when (d.handler.playing ≠ ksiEngineUninitialized) x >>= fun _ => init sizes.1) d = _
    rw [Prog.when, if_pos hplaying]
  refine (hwhen _).trans ?_
  rw [bind_assoc]
  exact hd'

theorem simulates_commit : Simulates (Agrees err) Cmd.commit commit := by
  intro h d r h' hR hrun
  have hcommit : commit d = locked Cmd.commit d := by
    unfold commit locked
    rw [if_pos hR.lockable]
    split <;> rfl
  rw [hcommit]
  exact simulates_locked commit_sound h d r h' hR hrun

theorem simulates_initializeAudio :
    Simulates (Agrees err) (Cmd.initializeAudio p.toWorld lptr) (initializeAudio p lptr) := by
  unfold Cmd.initializeAudio Full.initializeAudio
  refine (Simulates.require _ _).bind fun _ => simulates_stop.bind fun _ => ?_
  refine .stutter (fun h d hR => ?_) fun _ => ?_
  · have hinit : d.handler.session.engine.playing ≠ -2 := by
      rw [hR.handler, hR.sound.playing]
      have hnot := hR.sound.initialised
      cases hp : h.playing <;> simp_all [Playing.toInt]
    have hcheck : checkInitialized d.handler.session.engine =
      some (.ok (), d.handler.session.engine) := by
      show Prog.require (d.handler.session.engine.playing ≠ -2) ksiErrorUninitialized _ = _
      rw [Prog.require, if_pos hinit]
      rfl
    refine ⟨(), d, ?_, hR⟩
    unfold onHandler onEngine
    rw [hcheck]
    rfl
  · have hrequire : Keeps (Sound err)
      (Prog.require (p.paIOInit = ksiErrorNone) p.paIOInit : Cmd.Line Unit) :=
      (sound_compositional err).require trivial
    exact (simulates_locked hrequire).bind fun _ => simulates_commit.bind fun _ =>
      simulates_locked (onPool_sound launch_initialised)

/-- A line that sets the time; the handler has none. -/
theorem simulates_setTime {α : Type} (o : Option α) (f : α → Nat) :
    Simulates (Agrees err) (Prog.require (o.isSome = true) ksiErrorSyntax)
      (orError o ksiErrorSyntax >>= fun a => setTime (f a)) := by
  cases o with
  | none => exact .error _
  | some a =>
      intro h d r h' hR hrun
      cases hrun
      exact ⟨_, rfl, hR.handler, hR.lockable, hR.sound⟩

/-- Each case of the switch. -/
theorem simulates_consumeVerb (toRet : Bool) (cmd : Char) (lptr : List Char) :
    Simulates (Agrees err) (Cmd.consumeVerb p.toWorld toRet cmd lptr)
      (consumeVerb p toRet cmd lptr) := by
  have hgoOn : ∀ {x : Cmd.Line Unit} {y : Line Unit}, Simulates (Agrees err) x y →
      Simulates (Agrees err) (x >>= fun _ => pure false) (y >>= fun _ => pure false) :=
    fun hxy => hxy.bind fun _ => .pure false
  unfold Cmd.consumeVerb
  dsimp only
  split
  all_goals unfold Full.consumeVerb
  · exact hgoOn ((Simulates.orError _ _).bind fun _ => (simulates_request _).bind fun _ =>
      simulates_setIdRet _ _)
  · exact hgoOn simulates_makeWire
  · exact hgoOn (simulates_edit _ _)
  · exact hgoOn (simulates_edit _ _)
  · exact hgoOn (simulates_edit _ _)
  · exact hgoOn (simulates_setTime _ _)
  · exact hgoOn (simulates_setTime _ _)
  · exact hgoOn simulates_makeBias
  · exact .pure true
  · exact hgoOn ((Simulates.orError _ _).bind fun _ => (simulates_setIdRet _ _).bind fun _ =>
      (simulates_request _).bind fun _ => .pure ())
  · exact hgoOn (simulates_locked (onPool_sound pause_initialised))
  · exact hgoOn (simulates_locked (onPool_sound resume_initialised))
  · exact hgoOn simulates_initializeEngine
  · exact hgoOn simulates_initializeAudio
  · exact hgoOn (simulates_onHandler ((lineWalks_sound err).loadTimeSeq _ _))
  · exact hgoOn (simulates_onHandler ((sound_compositional err).bind
      ((sound_compositional err).orError _ trivial) fun _ =>
        onEngine_sound (keepsEngine_of_same (unload_same _))))
  · exact .pure false
  · exact .pure false
  · exact .pure false
  · split <;> first | contradiction | exact .error _

theorem simulates_consume_file {line : List Char → Cmd.Line Bool} {line' : List Char → Line Bool}
    (hline : ∀ l, Simulates (Agrees err) (line l) (line' l)) :
    ∀ lines, Simulates (Agrees err) (Cmd.consume_file line lines) (consume_file line' lines) := by
  intro lines
  induction lines with
  | nil => exact .pure ()
  | cons l rest ih =>
      refine (hline l).bind fun quit => ?_
      cases quit with
      | true => exact .pure ()
      | false => exact ih

/-- **On an engine that has been initialised** a line does what it does to the handler, where
that has a result. -/
theorem simulates_consume_line (fuel : Nat) : ∀ (toRet : Bool) (line : List Char),
    Simulates (Agrees err) (Cmd.consume_line p.toWorld fuel toRet line)
      (consume_line p fuel toRet line) := by
  induction fuel with
  | zero =>
      intro toRet line
      cases line with
      | nil => exact .pure false
      | cons c lptr =>
          by_cases hc : c = 'l'
          · subst hc
            exact (Simulates.orError _ _).bind fun _ => .fault _
          · rw [Cmd.consume_line_verb hc, consume_line_verb hc]
            exact simulates_consumeVerb _ _ _
  | succ fuel ih =>
      intro toRet line
      cases line with
      | nil => exact .pure false
      | cons c lptr =>
          by_cases hc : c = 'l'
          · subst hc
            exact (Simulates.orError _ _).bind fun lines =>
              (simulates_consume_file (ih false) lines).bind fun _ => .pure false
          · rw [Cmd.consume_line_verb hc, consume_line_verb hc]
            exact simulates_consumeVerb _ _ _

end Ksi.Cmd.Full
