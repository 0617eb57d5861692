/-
What the replies to a client say.

`outcome` is what the engine makes of a line, read off the parser, the kernels and the
functions of engine.c, before any of the layers above passes it on.  A reply is faithful
if it says just that, and names a node only if there is one.

It is for every line but three kinds: `ksiEngineSendEditingCommand`, `ksiEnginePause` and
`ksiEngineResume` drop the error that they have found.  So an `e` is reported faithfully
exactly if the node and its plugin accept it, a `P` exactly while the engine plays and an
`R` exactly while it is paused.
-/
import Ksi.Proofs.Dag.Registered
import Ksi.Cmd.Handler

namespace Ksi.Cmd

open Dag Pool Prog Runs KsiError Playing

variable {w : World} {h h' : Handler} {fuel : Nat} {err : KsiError}

/-! ### What came of a line -/

/-- What the engine has made of a request. -/
inductive Outcome
  | carriedOut
  | refused (err : KsiError)
  deriving DecidableEq, Repr

/-- The outcome for an error that may be `ksiErrorNone`. -/
def Outcome.ofErr (err : KsiError) : Outcome :=
  if err = ksiErrorNone then .carriedOut else .refused err

/-- What follows on what has been read of the line. -/
def scanned {α : Type} (o : Option α) (f : α → Option Outcome) : Option Outcome :=
  match o with
  | none => some (.refused ksiErrorSyntax)
  | some a => f a

/-- What follows on what a function returns. -/
def returned {σ α : Type} (r : Option (Except KsiError α × σ)) (f : α → Option Outcome) :
    Option Outcome :=
  match r with
  | none => none
  | some (.error err, _) => some (.refused err)
  | some (.ok a, _) => f a

/-- The kernel's outcome. -/
def kernelOutcome (c : Call) (h : Handler) : Option Outcome :=
  returned (c.kernel .editing h.session.engine) fun _ => some .carriedOut

/-- The outcome of a line that makes one of the edits, or pauses or resumes the engine. -/
def outcome (w : World) (h : Handler) : List Char → Option Outcome
  | 'n' :: lptr => scanned (scanType lptr) fun type => kernelOutcome (.addNode type) h
  | 'w' :: lptr =>
      scanned (scanWire lptr) fun (((srcId, srcPort), desId, desPort), rest) =>
        returned (ksiEngineGetInputType desId desPort h.session.engine) fun t =>
          returned (inputG w t (scanChar 'x' rest) h) fun g =>
            kernelOutcome (.makeWire srcId srcPort desId desPort g) h
  | 'b' :: lptr =>
      scanned (scanPort lptr) fun ((id, port), rest) =>
        returned (ksiEngineGetInputType id port h.session.engine) fun t =>
          returned (inputG w t (scanChar 'x' rest) h) fun g => kernelOutcome (.makeBias id port g) h
  | 'd' :: lptr =>
      scanned (scanNodes lptr) fun (srcId, desId) => kernelOutcome (.detachNodes srcId desId) h
  | 'r' :: lptr => scanned (scanD lptr) fun (id, _) => kernelOutcome (.removeNode id) h
  | 'u' :: lptr =>
      scanned (scanWire lptr) fun (((srcId, srcPort), desId, desPort), _) =>
        kernelOutcome (.removeWire srcId srcPort desId desPort) h
  | 'e' :: lptr =>
      scanned (scanArgs lptr) fun (id, args) =>
        kernelOutcome (.sendEditingCommand id (String.ofList args)) h
  | 'P' :: _ => some (.ofErr (pauseErr h.playing))
  | 'R' :: _ => some (.ofErr (resumeErr h.playing))
  | _ => none

/-- There is a node with this id. -/
def Live (e : Engine) (id : Int) : Prop :=
  ∃ n node, e.graph.nodes.check id = some (some n) ∧ e.graph.heap n = some node

/-- The reply says what came of the line, and `report_type` is called for a node that
lives. -/
structure Faithful (o : Outcome) (r : Reply) (e : Engine) : Prop where
  none_iff : r.err = ksiErrorNone ↔ o = .carriedOut
  code : ∀ err, o = .refused err → r.err = err
  typeOf : ∀ id, r.typeOf = some id → Live e id

/-! ### When a reply is faithful -/

/-- The commands of MidiSeg. -/
def MidiSegTakes (e : Engine) : List Char → Prop
  | 'm' :: rest => ∃ mid seq, scanInt (String.ofList rest) = some mid ∧
      e.timeseqResources.check mid = some (some seq)
  | 'p' :: _ | 'P' :: _ => True
  | _ => False

/-- The plugin takes the command. -/
def Takes (e : Engine) (inlineId : Nat) (args : String) : Prop :=
  match inlineId with
  | 1 => ∃ port_count, scanInt args = some port_count ∧ 0 < port_count
  | 3 => MidiSegTakes e args.toList
  | 2 | 4 | 5 | 6 => False
  | _ => True

/-- There is a node with this id, and its plugin takes the command. -/
def Editable (e : Engine) (id : Int) (args : String) : Prop :=
  ∃ n node, e.graph.nodes.check id = some (some n) ∧ e.graph.heap n = some node ∧
    Takes e (ksiNodeTypeInlineId node.type) args

/-- No layer drops an error of the line. -/
def Unmasked (h : Handler) : List Char → Prop
  | 'e' :: lptr =>
      match scanArgs lptr with
      | none => True
      | some (id, args) => Editable h.session.engine id (String.ofList args)
  | 'P' :: _ => h.playing = ksiEnginePlaying
  | 'R' :: _ => h.playing = ksiEnginePaused
  | _ => True

/-! ### The state of a session -/

/-- The versions are well formed, the engine is initialised, and `err` holds `err`. -/
structure Sound (err : KsiError) (h : Handler) : Prop where
  hot : Registered h.session.engine.graph
  cold : Registered h.other.graph
  playing : h.session.engine.playing = h.playing.toInt
  initialised : h.playing ≠ ksiEngineUninitialized
  err : h.err = err

theorem sound_init (wp : WorkerPool) (framesPerBuffer : Nat) :
    Sound ksiErrorNone (Handler.init wp framesPerBuffer) :=
  ⟨Registered.empty, Registered.empty, rfl, nofun, rfl⟩

theorem sound_compositional (err : KsiError) :
    Compositional (fun _ => True) fun {α} (x : Line α) => Keeps (Sound err) x :=
  keeps_compositional (Sound err)

/-- What the engine's own functions have to keep. -/
def KeepsEngine {α : Type} (x : Edit α) : Prop := ∀ s, Registered s.graph →
  wp True x s (fun _ s' => Registered s'.graph ∧ s'.playing = s.playing)
    fun _ s' => Registered s'.graph ∧ s'.playing = s.playing

theorem Sound.engine (hs : Sound err h) {e : Engine} (hreg : Registered e.graph)
    (hplaying : e.playing = h.session.engine.playing) (cmds : List Call) :
    Sound err { h with session := { engine := e, syncCmds := cmds } } :=
  ⟨hreg, hs.cold, hplaying.trans hs.playing, hs.initialised, hs.err⟩

theorem keepsEngine_kernel (c : Call) (flag : Flag) : KeepsEngine (c.kernel flag) := fun _ hs =>
  wp_mono (wp_and (hs.call c) (fixed_engineWalks.kernel c _)) (fun _ _ h => ⟨h.1, h.2.playing⟩)
    fun _ _ h => ⟨h.1, h.2.playing⟩

theorem keepsEngine_keeps (p : Int) (c : Call) :
    Keeps (fun e : Engine => Registered e.graph ∧ e.playing = p)
    (c.kernel .committing) := fun s hs =>
  wp_mono (keepsEngine_kernel c _ s hs.1) (fun _ _ h => ⟨h.1, h.2.trans hs.2⟩)
    fun _ _ h => ⟨h.1, h.2.trans hs.2⟩

/-- A program that changes neither the wiring nor `playing`. -/
theorem keepsEngine_of_same {α : Type} {x : Edit α}
    (hx : Within (fun s s' => s'.graph = s.graph ∧ s'.playing = s.playing) x) : KeepsEngine x :=
  fun s hs => wp_mono (hx s) (fun _ _ h => ⟨by rw [h.1]; exact hs, h.2⟩)
    fun _ _ h => ⟨by rw [h.1]; exact hs, h.2⟩

theorem onEngine_sound {α : Type} {x : Edit α} (hx : KeepsEngine x) :
    Keeps (Sound err) (onEngine x) := by
  intro h hs
  have hwp := hx h.session.engine hs.hot
  unfold Prog.wp onEngine at *
  cases hr : x h.session.engine with
  | none => trivial
  | some r =>
      rw [hr] at hwp
      obtain ⟨r | a, e⟩ := r <;> exact hs.engine hwp.1 hwp.2 _

theorem Session.call_sound (hs : Sound err h) (c : Call) {r : KsiError × Option Nat} {s : Session}
    (hr : h.session.call c = some (r, s)) : Sound err { h with session := s } := by
  have hwp := keepsEngine_kernel c .editing h.session.engine hs.hot
  unfold Session.call at hr
  cases hk : c.kernel .editing h.session.engine with
  | none => rw [hk] at hr; cases hr
  | some k =>
      unfold Prog.wp at hwp
      rw [hk] at hr hwp
      obtain ⟨k | a, e⟩ := k <;> cases hr <;> exact hs.engine hwp.1 hwp.2 _

theorem request_sound (c : Call) : Keeps (Sound err) (request c) := by
  intro h hs
  have hcall : ∀ r s, h.session.request c = some (r, s) → Sound err { h with session := s } := by
    intro r s hr
    unfold Session.request at hr
    split at hr
    · obtain ⟨⟨r', s'⟩, hr', heq⟩ := Option.map_eq_some_iff.mp hr
      cases heq
      exact Session.call_sound hs _ hr'
    · exact Session.call_sound hs _ hr
  unfold Prog.wp request
  cases hr : h.session.request c with
  | none => trivial
  | some r =>
      obtain ⟨⟨err, id⟩, s⟩ := r
      obtain ⟨hhot, hcold, hplaying, hinit, herr'⟩ := hcall _ _ hr
      by_cases herr : err = ksiErrorNone
      · simpa [herr] using ⟨hhot, hcold, hplaying, hinit, herr'⟩
      · simpa [herr] using ⟨hhot, hcold, hplaying, hinit, herr'⟩

theorem commit_sound : Keeps (Sound err) commit := by
  intro h hs
  unfold Prog.wp commit ksiEngineCommit
  by_cases hq : h.session.engine.playing = -2 ∨ h.session.syncCmds = []
  · have hturn : h.turn = h := if_pos hq
    rw [if_pos hq, hturn]
    exact hs
  · rw [if_neg hq]
    cases hr : ksiMVCCCommitter h.session h.other with
    | none => trivial
    | some r =>
        unfold ksiMVCCCommitter at hr
        obtain ⟨⟨rs, e⟩, hloop, rfl⟩ := Option.map_eq_some_iff.mp hr
        obtain ⟨hreg, hplaying⟩ := commitLoop_keeps (keepsEngine_keeps _) _ hloop ⟨hs.cold, rfl⟩
        exact ⟨hreg, hs.hot, hplaying.trans (by rw [Handler.turn_playing]; exact hs.playing),
          (Handler.turn_playing h).symm ▸ hs.initialised, (Handler.turn_err h).trans hs.err⟩

theorem Sound.put (hs : Sound err h) {r : Playing × WorkerPool}
    (hr : r.1 ≠ ksiEngineUninitialized) :
    Sound err (h.put r) := ⟨hs.hot, hs.cold, rfl, hr, hs.err⟩

theorem onPool_sound {f : Playing → WorkerPool → KsiError × Playing × WorkerPool}
    (hf : ∀ p wp, p ≠ ksiEngineUninitialized → (f p wp).2.1 ≠ ksiEngineUninitialized) :
    Keeps (Sound err) (onPool f) := by
  intro h hs
  have hput := hs.put (hf h.playing h.wp hs.initialised)
  unfold Prog.wp onPool
  by_cases herr : (f h.playing h.wp).1 = ksiErrorNone
  · simpa [herr] using hput
  · simpa [herr] using hput

/-! ### The lines keep it -/

theorem setIdRet_sound (toRet : Bool) (id : Int) : Keeps (Sound err) (setIdRet toRet id) :=
  (sound_compositional err).when
    (.modify fun _ hs => ⟨hs.hot, hs.cold, hs.playing, hs.initialised, hs.err⟩)

theorem pause_initialised (p : Playing) (wp : WorkerPool) (hp : p ≠ ksiEngineUninitialized) :
    (ksiEnginePause p wp).2.1 ≠ ksiEngineUninitialized := by
  unfold ksiEnginePause
  split
  · exact hp
  · nofun

theorem resume_initialised (p : Playing) (wp : WorkerPool) (hp : p ≠ ksiEngineUninitialized) :
    (ksiEngineResume p wp).2.1 ≠ ksiEngineUninitialized := by
  unfold ksiEngineResume
  split
  · exact hp
  · nofun

theorem launch_initialised (p : Playing) (wp : WorkerPool) (hp : p ≠ ksiEngineUninitialized) :
    (ksiEngineLaunch p wp).2.1 ≠ ksiEngineUninitialized := by
  unfold ksiEngineLaunch
  split
  · exact hp
  · nofun

/-- A property of programs that the parts of which lines are made have, but for a commit and
a new engine. -/
structure LineWalks (K : ∀ {α : Type}, Line α → Prop) : Prop
    extends Compositional (fun _ => True) K where
  request : ∀ c, K (request c)
  onEngine : ∀ {α : Type} {x : Edit α}, KeepsEngine x → K (onEngine x)
  onPool : ∀ {f : Playing → WorkerPool → KsiError × Playing × WorkerPool},
    (∀ p wp, p ≠ ksiEngineUninitialized → (f p wp).2.1 ≠ ksiEngineUninitialized) → K (onPool f)
  setIdRet : ∀ toRet id, K (setIdRet toRet id)

namespace LineWalks

variable {K : ∀ {α : Type}, Line α → Prop} (hK : LineWalks K)
include hK

theorem stop : K Cmd.stop := hK.bind (hK.read _) fun _ => hK.when (hK.onPool fun _ _ _ => nofun)

theorem inputG (t : PortType) (rest : Option (List Char)) : K (inputG w t rest) :=
  hK.bind (hK.read _) fun _ => hK.ite (hK.orError _ trivial)
    (hK.bind (hK.orError _ trivial) fun _ => hK.pure _)

theorem loadTimeSeq (toRet : Bool) (lptr : List Char) : K (loadTimeSeq w toRet lptr) := by
  have hE : K (Cmd.onEngine checkInitialized) := hK.onEngine fun s hs => by
    rw [wp_checkInitialized]
    exact ⟨fun _ => ⟨hs, rfl⟩, fun _ => ⟨hs, rfl⟩⟩
  refine hK.bind hE fun _ => ?_
  split
  · exact hK.error _ trivial
  · exact hK.bind (hK.read _) fun _ => hK.bind (hK.onEngine fun s hs => ⟨hs, rfl⟩) fun _ =>
      hK.setIdRet _ _

/-- The lines that make an edit. -/
theorem edit {α : Type} (o : Option α) (c : α → Call) :
    K (orError o ksiErrorSyntax >>= fun a => Cmd.request (c a) >>= fun _ => Pure.pure ()) :=
  hK.bind (hK.orError o trivial) fun _ => hK.bind (hK.request _) fun _ => hK.pure ()

/-- The lines that read a gain or a bias for the port. -/
theorem gain {id port : Int} {rest : Option (List Char)} (c : KsiData → Call) :
    K (Cmd.onEngine (ksiEngineGetInputType id port) >>= fun t => Cmd.inputG w t rest >>= fun g =>
      Cmd.request (c g) >>= fun _ => Pure.pure ()) :=
  hK.bind (hK.onEngine (keepsEngine_of_same (getInputType_same id port))) fun _ =>
    hK.bind (hK.inputG _ _) fun _ => hK.bind (hK.request _) fun _ => hK.pure ()

theorem consumeVerb (toRet : Bool) (cmd : Char) (lptr : List Char)
    (hcommit : cmd = 'a' → K commit) (hrestart : cmd = 'i' → ∀ fb, K (restart fb)) :
    K (consumeVerb w toRet cmd lptr) := by
  have hgoOn : ∀ x : Line Unit, K x → K (x >>= fun _ => Pure.pure false) := fun x hx =>
    hK.bind hx fun _ => hK.pure false
  unfold Cmd.consumeVerb
  dsimp only
  split
  · exact hgoOn _ (hK.bind (hK.orError _ trivial) fun _ => hK.bind (hK.request _) fun _ =>
      hK.setIdRet _ _)
  · exact hgoOn _ (hK.bind (hK.orError _ trivial) fun _ => hK.gain _)
  · exact hgoOn _ (hK.edit _ _)
  · exact hgoOn _ (hK.edit _ _)
  · exact hgoOn _ (hK.edit _ _)
  · exact hgoOn _ (hK.require trivial)
  · exact hgoOn _ (hK.require trivial)
  · exact hgoOn _ (hK.bind (hK.orError _ trivial) fun _ => hK.gain _)
  · exact hK.pure true
  · exact hgoOn _ (hK.bind (hK.orError _ trivial) fun _ => hK.bind (hK.setIdRet _ _) fun _ =>
      hK.bind (hK.request _) fun _ => hK.pure ())
  · exact hgoOn _ (hK.onPool pause_initialised)
  · exact hgoOn _ (hK.onPool resume_initialised)
  · exact hgoOn _ (hK.bind (hK.orError _ trivial) fun _ => hrestart rfl _)
  · exact hgoOn _ (hK.bind (hK.require trivial) fun _ => hK.bind hK.stop fun _ =>
      hK.bind (hK.require trivial) fun _ => hK.bind (hcommit rfl) fun _ =>
        hK.onPool launch_initialised)
  · exact hgoOn _ (hK.loadTimeSeq _ _)
  · exact hgoOn _ (hK.bind (hK.orError _ trivial) fun _ =>
      hK.onEngine (keepsEngine_of_same (unload_same _)))
  · exact hK.pure false
  · exact hK.pure false
  · exact hK.pure false
  · exact hK.error _ trivial

end LineWalks

theorem lineWalks_sound (err : KsiError) :
    LineWalks fun {α} (x : Line α) => Keeps (Sound err) x where
  toCompositional := sound_compositional err
  request := request_sound
  onEngine := onEngine_sound
  onPool := onPool_sound
  setIdRet := setIdRet_sound

theorem restart_sound (fb : Int) : Keeps (Sound err) (restart fb) := by
  have hK := lineWalks_sound err
  refine hK.bind hK.stop fun _ => hK.bind (.modify fun h hs => hs.put ?_) fun _ =>
    .modify fun h hs => ⟨Registered.empty, Registered.empty, rfl, nofun, hs.err⟩
  unfold ksiEngineDestroy impl_ksiEngineStop
  split <;> nofun

theorem consumeVerb_sound (toRet : Bool) (cmd : Char) (lptr : List Char) :
    Keeps (Sound err) (consumeVerb w toRet cmd lptr) :=
  (lineWalks_sound err).consumeVerb toRet cmd lptr (fun _ => commit_sound) fun _ => restart_sound

theorem consume_file_sound {line : List Char → Line Bool}
    (hline : ∀ l, Keeps (Sound err) (line l)) :
    ∀ lines, Keeps (Sound err) (consume_file line lines) := by
  have hK := sound_compositional err
  intro lines
  induction lines with
  | nil => exact hK.pure ()
  | cons l rest ih =>
      refine hK.bind (hline l) fun quit => ?_
      cases quit with
      | true => exact hK.pure ()
      | false => exact ih

theorem consume_line_sound (fuel : Nat) :
    ∀ (toRet : Bool) (line : List Char), Keeps (Sound err) (consume_line w fuel toRet line) := by
  have hK := sound_compositional err
  induction fuel with
  | zero =>
      intro toRet line
      unfold consume_line
      split
      · exact hK.pure false
      · exact hK.bind (hK.orError _ trivial) fun _ _ _ => trivial
      · exact consumeVerb_sound _ _ _
  | succ fuel ih =>
      intro toRet line
      unfold consume_line
      split
      · exact hK.pure false
      · exact hK.bind (hK.orError _ trivial) fun lines =>
          hK.bind (consume_file_sound (ih false) lines) fun _ => hK.pure false
      · exact consumeVerb_sound _ _ _

theorem handle_sound (hs : Sound ksiErrorNone h) {line : List Char} {r : Option Reply}
    (hr : handle w fuel line h = some (r, h')) : ∃ err, Sound err h' := by
  unfold handle at hr
  have herr : ∀ {h₁ : Handler} (err' : KsiError), Sound ksiErrorNone h₁ →
    Sound err' { h₁ with err := err' } :=
    fun err' hs₁ => ⟨hs₁.hot, hs₁.cold, hs₁.playing, hs₁.initialised, rfl⟩
  dsimp only at hr
  split at hr
  · cases hr
    split
    · exact ⟨_, herr _ hs⟩
    · exact ⟨_, hs.hot, hs.cold, hs.playing, hs.initialised, hs.err⟩
  · cases hr
    split
    · exact ⟨_, hs.hot, hs.cold, hs.playing, hs.initialised, hs.err⟩
    · exact ⟨_, herr _ hs⟩
  · have hline := consume_line_sound (w := w) fuel true line h hs
    cases hc : consume_line w fuel true line h with
    | none => rw [hc] at hr; cases hr
    | some c =>
        rw [hc] at hr
        unfold Prog.wp at hline
        rw [hc] at hline
        obtain ⟨err | ⟨_ | _⟩, h₁⟩ := c <;> cases hr
        · exact ⟨_, herr _ hline⟩
        · exact ⟨_, hline⟩
        · exact ⟨_, hline⟩

theorem finish_sound (hs : Sound err h) :
    wp True finish h (fun _ h' => Sound ksiErrorNone h') fun _ h' => Sound ksiErrorNone h' := by
  have hunfailing : commit.Unfailing := by
    intro h
    unfold Prog.wp commit
    cases ksiEngineCommit h.session h.other <;> trivial
  unfold finish
  rw [wp_bind, wp_read]
  refine ⟨fun _ => trivial, fun scope _ => ?_⟩
  rw [wp_bind, wp_when]
  have hend : ∀ {h₁ : Handler}, Sound err h₁ → Sound ksiErrorNone { h₁ with err := ksiErrorNone } :=
    fun hs₁ => ⟨hs₁.hot, hs₁.cold, hs₁.playing, hs₁.initialised, rfl⟩
  refine ⟨fun _ => ?_, fun _ => hend hs⟩
  exact wp_mono (wp_and (commit_sound h hs) (hunfailing h)) (fun _ _ h' => hend h'.1)
    fun _ _ h' => h'.2.elim

theorem step_sound {a : World × Nat × List Char} (hs : Sound ksiErrorNone h)
    (hstep : step h a = some h') : Sound ksiErrorNone h' := by
  unfold step at hstep
  split at hstep
  · rename_i r h₁ hr
    obtain ⟨err, hs₁⟩ := handle_sound hs hr
    obtain ⟨⟨r', h₂⟩, hfin, rfl⟩ := Option.map_eq_some_iff.mp hstep
    cases r' with
    | ok a => exact of_wp_ok (finish_sound hs₁) hfin
    | error e => exact of_wp_error (finish_sound hs₁) hfin
  · cases hstep

/-- **The state is sound before every line.** -/
theorem sound_of_reaches {wp : WorkerPool} {framesPerBuffer : Nat}
    (hreach : Reaches step Free (Handler.init wp framesPerBuffer) h) : Sound ksiErrorNone h :=
  hreach.invariant (Sound ksiErrorNone) (sound_init wp framesPerBuffer) fun _ _ _ hs _ =>
    step_sound hs

/-! ### Outcomes -/

/-- What `x` returns is what came of the line. -/
def Tells {α : Type} (o : Option Outcome) (x : Line α) (h : Handler) : Prop :=
  wp True x h (fun _ _ => o = some .carriedOut) fun err _ =>
    err ≠ ksiErrorNone ∧ o = some (.refused err)

theorem Tells.scanned {α β : Type} {o : Option α} {f : α → Option Outcome} {g : α → Line β}
    (hg : ∀ a, o = some a → Tells (f a) (g a) h) :
    Tells (Cmd.scanned o f) (orError o ksiErrorSyntax >>= g) h := by
  unfold Tells
  rw [wp_bind, wp_orError]
  refine ⟨fun a ha => ?_, fun ho => ⟨by decide, by rw [ho]; rfl⟩⟩
  subst ha
  exact hg a rfl

/-- `x` changes nothing, and returns no `ksiErrorNone` as an error. -/
def Looks {σ α : Type} (x : Prog σ KsiError α) : Prop :=
  ∀ s, wp True x s (fun _ s' => s' = s) fun err s' => s' = s ∧ err ≠ ksiErrorNone

theorem looks_compositional {σ : Type} :
    Compositional (· ≠ ksiErrorNone) fun {α} (x : Prog σ KsiError α) => Looks x where
  pure := fun _ _ => rfl
  error := fun _ he _ => ⟨rfl, he⟩
  bind := by
    intro α β x f hx hf s
    rw [wp_bind]
    refine wp_mono (hx s) (fun a s' hs => ?_) fun _ _ h => h
    subst hs
    exact hf a s'
  read := by
    intro α f s
    rw [wp_read]
    exact ⟨fun _ => trivial, fun _ _ => rfl⟩
  assert := by
    intro c _ s
    rw [wp_assert]
    exact ⟨fun _ => rfl, fun _ => trivial⟩

theorem Looks.onEngine {α : Type} {x : Edit α} (hx : Looks x) : Looks (onEngine x) := by
  intro h
  have hwp := hx h.session.engine
  unfold Prog.wp Cmd.onEngine at *
  cases hr : x h.session.engine with
  | none => trivial
  | some r =>
      rw [hr] at hwp
      obtain ⟨r | a, e⟩ := r
      · obtain ⟨rfl, herr⟩ := hwp
        exact ⟨rfl, herr⟩
      · obtain rfl : e = h.session.engine := hwp
        rfl

theorem Tells.returned {α β : Type} {x : Line α} (hx : Looks x) {f : α → Option Outcome}
    {g : α → Line β} (hg : ∀ a, Tells (f a) (g a) h) : Tells (Cmd.returned (x h) f)
      (x >>= g) h := by
  unfold Tells
  rw [wp_bind]
  have hwp := hx h
  unfold Prog.wp at hwp ⊢
  cases hr : x h with
  | none => trivial
  | some r =>
      rw [hr] at hwp
      obtain ⟨r | a, h₁⟩ := r
      · exact ⟨hwp.2, rfl⟩
      · obtain rfl : h₁ = h := hwp
        exact hg a

theorem returned_onEngine {α : Type} {x : Edit α} {f : α → Option Outcome} :
    returned (onEngine x h) f = returned (x h.session.engine) f := by
  unfold Cmd.onEngine
  cases x h.session.engine with
  | none => rfl
  | some r => obtain ⟨_ | _, _⟩ := r <;> rfl

/-- The engine, the queue and its history after a call. -/
def Handler.called (h : Handler) (e : Engine) (cmds queued : List Call) : Handler :=
  { h with session := { engine := e, syncCmds := cmds }, queued := queued }

/-- The kernel's error is passed on by all functions of dagedit.c but one. -/
theorem request_wp {c : Call} (hc : ∀ id args, c ≠ .sendEditingCommand id args)
    {Q : Option Nat → Handler → Prop} {E : KsiError → Handler → Prop}
    (hwp : wp True (c.kernel .editing) h.session.engine
      (fun id e => ∀ cmds queued, Q id (h.called e cmds queued))
      fun err e => err ≠ ksiErrorNone → ∀ cmds queued, E err (h.called e cmds queued)) :
    wp True (request c) h Q E := by
  have hreq : h.session.request c = h.session.call c := by
    unfold Session.request
    split
    · rename_i id args
      exact absurd rfl (hc id args)
    · rfl
  have hkernel : Errors (· ≠ ksiErrorNone) (c.kernel .editing) := errors_engineWalks.kernel c
  have herr := hkernel h.session.engine
  unfold Prog.wp at herr hwp ⊢
  unfold Cmd.request
  rw [hreq]
  unfold Session.call
  cases hk : c.kernel .editing h.session.engine with
  | none => trivial
  | some r =>
      rw [hk] at herr hwp
      obtain ⟨err | id, e⟩ := r
      · simp only [Option.map_some, if_neg herr]
        exact hwp herr _ _
      · simp only [Option.map_some, if_true]
        exact hwp _ _

/-- `ksiEngineSendEditingCommand` drops it. -/
theorem request_send_wp {id : Int} {args : String} {Q : Option Nat → Handler → Prop}
    {E : KsiError → Handler → Prop}
    (hwp : wp True ((Call.sendEditingCommand id args).kernel .editing) h.session.engine
      (fun _ e => ∀ cmds queued, Q none (h.called e cmds queued))
      fun err e => err ≠ ksiErrorNone → ∀ cmds queued, Q none (h.called e cmds queued)) :
    wp True (request (.sendEditingCommand id args)) h Q E := by
  have hkernel : Errors (· ≠ ksiErrorNone) ((Call.sendEditingCommand id args).kernel .editing) :=
    errors_engineWalks.kernel _
  have herr := hkernel h.session.engine
  unfold Prog.wp at herr hwp ⊢
  unfold Cmd.request Session.request Session.call
  dsimp only
  cases hk : (Call.sendEditingCommand id args).kernel .editing h.session.engine with
  | none => trivial
  | some r =>
      rw [hk] at herr hwp
      obtain ⟨err | id, e⟩ := r
      · exact hwp herr _ _
      · exact hwp _ _

/-- What a call returns is the kernel's outcome. -/
theorem kernelOutcome_wp (c : Call) :
    wp True (c.kernel .editing) h.session.engine (fun _ _ => kernelOutcome c h = some .carriedOut)
      fun err _ => kernelOutcome c h = some (.refused err) := by
  unfold Prog.wp kernelOutcome
  cases c.kernel .editing h.session.engine with
  | none => trivial
  | some r => obtain ⟨_ | _, _⟩ := r <;> rfl

theorem Tells.request {β : Type} {c : Call} (hc : ∀ id args, c ≠ .sendEditingCommand id args)
    {g : Option Nat → Line β} (hg : ∀ a, (g a).Unfailing) :
    Tells (kernelOutcome c h) (request c >>= g) h := by
  unfold Tells
  rw [wp_bind]
  refine request_wp hc (wp_mono (kernelOutcome_wp c) (fun id e ho _ _ => ?_)
    fun err e ho herr _ _ => ⟨herr, ho⟩)
  exact wp_mono (hg id _) (fun _ _ _ => ho) fun _ _ h => h.elim

theorem getInputType_looks (id port : Int) : Looks (ksiEngineGetInputType id port) := by
  have hK := looks_compositional (σ := Engine)
  exact hK.bind (hK.bind (hK.read _) fun _ => hK.orError _ (by decide)) fun _ =>
    hK.bind (hK.read _) fun _ => hK.bind (hK.require (by decide)) fun _ => hK.read _

theorem inputG_looks (t : PortType) (rest : Option (List Char)) : Looks (inputG w t rest) := by
  have hK := looks_compositional (σ := Handler)
  exact hK.bind (hK.read _) fun _ => hK.ite (hK.orError _ (by decide))
    (hK.bind (hK.orError _ (by decide)) fun _ => hK.pure _)

/-- The lines that read a gain or a bias for the port. -/
theorem Tells.gain {id port : Int} {rest : Option (List Char)} {c : KsiData → Call}
    (hc : ∀ g id args, c g ≠ .sendEditingCommand id args) :
    Tells (Cmd.returned (ksiEngineGetInputType id port h.session.engine) fun t =>
        Cmd.returned (inputG w t rest h) fun g => kernelOutcome (c g) h)
      (Cmd.onEngine (ksiEngineGetInputType id port) >>= fun t => inputG w t rest >>= fun g =>
        Cmd.request (c g) >>= fun _ => pure ()) h := by
  rw [← returned_onEngine]
  exact .returned (getInputType_looks id port).onEngine fun t => .returned (inputG_looks t rest)
    fun g => .request (hc g) fun _ => .pure ()

theorem makeWire_tells (lptr : List Char) : Tells (outcome w h ('w' :: lptr)) (makeWire w lptr) h :=
  .scanned fun _ _ => .gain fun _ _ _ => nofun

theorem makeBias_tells (lptr : List Char) : Tells (outcome w h ('b' :: lptr)) (makeBias w lptr) h :=
  .scanned fun _ _ => .gain fun _ _ _ => nofun

theorem detachNodes_tells (lptr : List Char) :
    Tells (outcome w h ('d' :: lptr)) (detachNodes lptr) h :=
  .scanned fun _ _ => .request (by exact fun _ _ => nofun) fun _ => .pure ()

theorem removeNode_tells (lptr : List Char) :
    Tells (outcome w h ('r' :: lptr)) (removeNode lptr) h :=
  .scanned fun _ _ => .request (by exact fun _ _ => nofun) fun _ => .pure ()

theorem removeWire_tells (lptr : List Char) :
    Tells (outcome w h ('u' :: lptr)) (removeWire lptr) h :=
  .scanned fun _ _ => .request (by exact fun _ _ => nofun) fun _ => .pure ()

theorem newNode_tells (lptr : List Char) :
    Tells (outcome w h ('n' :: lptr)) (newNode true lptr) h :=
  .scanned fun _ _ => .request (by exact fun _ _ => nofun) fun _ => (Unfailing.modify _).when

/-! ### The ids that are reported -/

theorem Live.of_holds {e : Engine} (hreg : Registered e.graph) {i : Nat} {n : NodePtr}
    (hn : e.graph.nodes.Holds i n) : Live e i := by
  obtain ⟨node, hnode, -⟩ := hreg.slots i n hn
  exact ⟨n, node, hn.check, hnode⟩

/-- AddNode returns the id of a node that lives. -/
theorem addNode_live {s : Engine} (hreg : Registered s.graph) (type : BitVec 32) :
    wp True ((Call.addNode type).kernel .editing) s (fun id s' => Live s' (id.getD 0 : Nat))
      fun _ _ => True := by
  unfold Call.kernel
  rw [wp_bind]
  refine impl_ksiEngineAddNode_wp (fun _ => rfl) type (fun _ _ => trivial)
    fun _ ports s' _ _ hs' => ?_
  refine Live.of_holds (hs' ▸ hreg.add type ports) (n := s.graph.nextNode) ?_
  rw [hs']
  exact (KsiVec.holds_insert hreg.tidy _).mpr (.inl ⟨rfl, rfl⟩)

theorem newNode_live (hs : Sound err h) (lptr : List Char) :
    wp True (newNode true lptr) h (fun _ h' => Live h'.session.engine h'.idRet)
      fun _ _ => True := by
  unfold newNode
  rw [wp_bind, wp_orError]
  refine ⟨fun type _ => ?_, fun _ => trivial⟩
  rw [wp_bind]
  refine request_wp (by exact fun _ _ => nofun) (wp_mono (addNode_live hs.hot type)
    (fun id e hlive _ _ => ?_) fun _ _ _ _ _ _ => trivial)
  unfold setIdRet
  rw [wp_when]
  exact ⟨fun _ => hlive, fun h => absurd rfl h⟩

theorem kscarletMidiSegEditCmd_wp {s : Engine} (args : String) :
    wp True (kscarletMidiSegEditCmd args) s (fun _ _ => MidiSegTakes s args.toList)
      fun _ _ => ¬ MidiSegTakes s args.toList := by
  unfold kscarletMidiSegEditCmd
  generalize args.toList = l
  split
  · rename_i rest
    rw [wp_bind, wp_orError]
    refine ⟨fun mid hmid => ?_, ?_⟩
    · rw [wp_bind, wp_read]
      refine ⟨fun _ => trivial, fun slot hslot => ?_⟩
      rw [wp_bind, wp_orError]
      refine ⟨fun seq hseq => ⟨mid, seq, hmid, by rw [hslot, hseq]⟩, ?_⟩
      rintro hseq ⟨mid', seq, hmid', hcheck⟩
      rw [hmid] at hmid'
      cases hmid'
      rw [hslot, hseq] at hcheck
      cases hcheck
    · rintro hmid ⟨mid', seq, hmid', -⟩
      rw [hmid] at hmid'
      cases hmid'
  · trivial
  · trivial
  · rw [wp_error]
    unfold MidiSegTakes
    split <;> simp_all

/-- SendEditingCommand does what is asked exactly if there is a node that takes the
command. -/
theorem sendEditingCommand_wp {s : Engine} {flag : Flag} (hinit : s.playing ≠ -2) (id : Int)
    (args : String) :
    wp True (impl_ksiEngineSendEditingCommand id args flag) s (fun _ _ => Editable s id args)
      fun _ _ => ¬ Editable s id args := by
  unfold impl_ksiEngineSendEditingCommand
  rw [wp_bind, wp_checkInitialized]
  refine ⟨fun _ => ?_, fun h => absurd h hinit⟩
  rw [wp_bind, wp_checkVec]
  refine ⟨fun _ => trivial, ?_, fun n hn => ?_⟩
  · rintro hnone ⟨n, node, hn, -⟩
    rw [hnone] at hn
    cases hn
  rw [wp_bind, wp_load]
  refine ⟨fun _ => trivial, fun node hnode => ?_⟩
  have hiff : Editable s id args ↔ Takes s (ksiNodeTypeInlineId node.type) args := by
    constructor
    · rintro ⟨n', node', hn', hnode', htakes⟩
      rw [hn] at hn'
      cases hn'
      rw [hnode] at hnode'
      cases hnode'
      exact htakes
    · exact fun htakes => ⟨n, node, hn, hnode, htakes⟩
  rw [hiff]
  generalize ksiNodeTypeInlineId node.type = inlineId
  split
  · unfold ksiBuiltinNodeFuncIdEditCmd Takes
    rw [wp_bind, wp_orError]
    refine ⟨fun port_count hscan => ?_, fun hscan => ?_⟩
    · rw [wp_bind, wp_require]
      refine ⟨fun hpos => ?_, ?_⟩
      · exact wp_mono ((load_unfailing.bind fun _ => impl_ksiNodeChangeInputPortCount_unfailing.bind
          fun _ => impl_ksiNodeChangeOutputPortCount_unfailing) s) (fun _ _ _ => ⟨_, hscan, hpos⟩)
          fun _ _ h => h.elim
      · rintro hneg ⟨k, hk, hpos⟩
        rw [hscan] at hk
        cases hk
        exact hneg hpos
    · rintro ⟨k, hk, -⟩
      rw [hscan] at hk
      cases hk
  · exact kscarletMidiSegEditCmd_wp args
  · exact not_false
  · exact not_false
  · exact not_false
  · exact not_false
  · rw [wp_pure]
    unfold Takes
    split <;> simp_all

theorem outcome_edit (lptr : List Char) : outcome w h ('e' :: lptr) =
    scanned (scanArgs lptr) fun x =>
    kernelOutcome (.sendEditingCommand x.1 (String.ofList x.2)) h := rfl

/-- An edit of a node: what is written to `idRet`, and what comes of it. -/
theorem editNode_wp (hs : Sound err h) (lptr : List Char) :
    wp True (editNode true lptr) h
      (fun _ h' => ∃ id args, scanArgs lptr = some (id, args) ∧ h'.idRet = id ∧
        ((outcome w h ('e' :: lptr) = some .carriedOut ∧
            Editable h.session.engine id (String.ofList args) ∧ Live h'.session.engine id) ∨
          ∃ err, err ≠ ksiErrorNone ∧ outcome w h ('e' :: lptr) = some (.refused err) ∧
            ¬ Editable h.session.engine id (String.ofList args)))
      fun err _ => scanArgs lptr = none ∧ err = ksiErrorSyntax ∧
        outcome w h ('e' :: lptr) = some (.refused ksiErrorSyntax) := by
  have hinit : h.session.engine.playing ≠ -2 := by
    rw [hs.playing]
    have := hs.initialised
    cases hp : h.playing <;> simp_all [Playing.toInt]
  unfold editNode
  rw [wp_bind, wp_orError]
  refine ⟨fun scanned hscan => ?_, fun hscan => ⟨hscan, rfl, by rw [outcome_edit, hscan]; rfl⟩⟩
  obtain ⟨id, args⟩ := scanned
  have houtcome : outcome w h ('e' :: lptr) =
      kernelOutcome (.sendEditingCommand id (String.ofList args)) h := by
    rw [outcome_edit, hscan]
    rfl
  rw [houtcome]
  dsimp only
  unfold setIdRet
  rw [wp_bind, wp_when]
  refine ⟨fun _ => ?_, fun h => absurd rfl h⟩
  rw [wp_modify, wp_bind]
  have hkernel : wp True ((Call.sendEditingCommand id (String.ofList args)).kernel .editing)
      h.session.engine (fun _ _ => Editable h.session.engine id (String.ofList args))
      fun _ _ => ¬ Editable h.session.engine id (String.ofList args) := by
    unfold Call.kernel
    rw [wp_bind]
    exact sendEditingCommand_wp hinit id _
  have hids : KeepsIds ((Call.sendEditingCommand id (String.ofList args)).kernel .editing) :=
    keepsIds_graphWalks.bind (keepsIds_graphWalks.ports.impl_ksiEngineSendEditingCommand _ _)
      fun _ => keepsIds_graphWalks.pure none
  refine request_send_wp (wp_mono (wp_and (wp_and (kernelOutcome_wp _) hkernel)
    (wp_and (hids _) (keepsEngine_kernel _ .editing _ hs.hot)))
    (fun _ e hok _ _ => ⟨id, args, hscan, rfl, .inl ⟨hok.1.1, hok.1.2, ?_⟩⟩)
    fun err e herr hne _ _ => ⟨id, args, hscan, rfl, .inr ⟨err, hne, herr.1.1, herr.1.2⟩⟩)
  obtain ⟨n, node, hn, -⟩ := hok.1.2
  obtain ⟨hholds, hpos⟩ := KsiVec.check_some hn
  have hlive := Live.of_holds hok.2.2.1 (i := id.toNat) (n := n)
    (by rw [hok.2.1.nodes]; exact hholds)
  rwa [Int.toNat_of_nonneg hpos] at hlive

theorem pauseErr_eq_none (p : Playing) : pauseErr p = ksiErrorNone ↔ p = ksiEnginePlaying := by
  cases p <;> decide

theorem resumeErr_eq_none (p : Playing) (hp : p ≠ ksiEngineUninitialized) :
    resumeErr p = ksiErrorNone ↔ p = ksiEnginePaused := by
  cases p <;> simp_all [resumeErr, Playing.toInt]

/-! ### Replies -/

theorem Handler.reply_err (h : Handler) (cmd : Option Char) : (h.reply cmd).err = h.err := by
  unfold Handler.reply
  split <;> rfl

/-- `report_type` is called for `idRet`, after an `n` or an `e` without error. -/
theorem Handler.reply_typeOf {c : Char} {id : Int} (ht : (h.reply (some c)).typeOf = some id) :
    (c = 'n' ∨ c = 'e') ∧ h.err = ksiErrorNone ∧ h.idRet = id := by
  unfold Handler.reply at ht
  split at ht <;> simp_all

theorem consume_line_verb {c : Char} (hc : c ≠ 'l') (toRet : Bool) (lptr : List Char) :
    consume_line w fuel toRet (c :: lptr) = consumeVerb w toRet c lptr := by
  cases fuel <;> unfold consume_line <;> split <;> simp_all

section Reply

variable {c : Char} {lptr : List Char} {x : Line Unit} {r : Reply} {o : Outcome}

/-- The reply to a line of one of the verbs, by what its case of the switch does. -/
theorem handle_verb (hc : c ≠ 'l' ∧ c ≠ '\x7b' ∧ c ≠ '\x7d')
    (hx : consumeVerb w true c lptr = x >>= fun _ => pure false)
    (hr : handle w fuel (c :: lptr) h = some (some r, h')) {Q : Unit → Handler → Prop}
    {E : KsiError → Handler → Prop} (hwp : wp True x h Q E) :
    r = h'.reply (some c) ∧
      (Q () h' ∨ ∃ err h₁, E err h₁ ∧ h' = { h₁ with err := err }) := by
  have hline : wp True (consume_line w fuel true (c :: lptr)) h
    (fun quit h' => quit = false ∧ Q () h') E := by
    rw [consume_line_verb hc.1, hx, wp_bind]
    exact wp_mono hwp (fun _ _ h => ⟨rfl, h⟩) fun _ _ h => h
  unfold handle at hr
  dsimp only at hr
  unfold Prog.wp at hline
  split at hr
  · rename_i heq
    exact absurd (List.cons.inj heq).1 hc.2.1
  · rename_i heq
    exact absurd (List.cons.inj heq).1 hc.2.2
  · cases hrun : consume_line w fuel true (c :: lptr) h with
    | none => rw [hrun] at hr; cases hr
    | some res =>
        rw [hrun] at hr hline
        obtain ⟨err | quit, h₁⟩ := res
        · cases hr
          exact ⟨rfl, .inr ⟨err, h₁, hline, rfl⟩⟩
        · obtain ⟨rfl, hq⟩ := hline
          cases hr
          exact ⟨rfl, .inl hq⟩

/-- A line whose error is passed on is reported as it came out. -/
theorem faithful_of_tells (hs : Sound ksiErrorNone h) (hc : c ≠ 'l' ∧ c ≠ '\x7b' ∧ c ≠ '\x7d')
    (he : c ≠ 'e') (hx : consumeVerb w true c lptr = x >>= fun _ => pure false)
    (hkeeps : Keeps (Sound ksiErrorNone) x) (htells : Tells (outcome w h (c :: lptr)) x h)
    (hlive : c = 'n' → wp True x h (fun _ h' => Live h'.session.engine h'.idRet) fun _ _ => True)
    (hr : handle w fuel (c :: lptr) h = some (some r, h')) (ho : outcome w h (c :: lptr) = some o) :
    Faithful o r h'.session.engine := by
  have hlive' : wp True x h (fun _ h' => c = 'n' → Live h'.session.engine h'.idRet)
    fun _ _ => True := by
    by_cases hn : c = 'n'
    · exact wp_mono (hlive hn) (fun _ _ h _ => h) fun _ _ h => h
    · exact wp_mono (hkeeps h hs) (fun _ _ _ h => absurd h hn) fun _ _ _ => trivial
  obtain ⟨rfl, hok | ⟨err, h₁, herr, rfl⟩⟩ := handle_verb hc hx hr
    (wp_and (wp_and htells hlive') (hkeeps h hs))
  · obtain ⟨⟨hout, hlive'⟩, hs'⟩ := hok
    rw [hout] at ho
    cases ho
    constructor
    · simp [Handler.reply_err, hs'.err]
    · rintro _ ⟨⟩
    · intro id hid
      obtain ⟨rfl | rfl, -, rfl⟩ := Handler.reply_typeOf hid
      · exact hlive' rfl
      · exact absurd rfl he
  · obtain ⟨⟨⟨hne, hout⟩, -⟩, -⟩ := herr
    rw [hout] at ho
    cases ho
    constructor
    · simp [Handler.reply_err, hne]
    · rintro _ ⟨⟩
      exact Handler.reply_err _ _
    · intro id hid
      exact absurd (Handler.reply_typeOf hid).2.1 hne

/-- A reply without an error is faithful exactly if the request was carried out. -/
theorem faithful_of_none {e : Engine} (hr : r.err = ksiErrorNone)
    (ht : o = .carriedOut → ∀ id, r.typeOf = some id → Live e id) :
    Faithful o r e ↔ o = .carriedOut := by
  constructor
  · exact fun hf => hf.none_iff.mp hr
  · intro ho
    refine ⟨iff_of_true hr ho, ?_, ht ho⟩
    rintro err rfl
    cases ho

theorem faithful_edit (hs : Sound ksiErrorNone h)
    (hr : handle w fuel ('e' :: lptr) h = some (some r, h'))
    (ho : outcome w h ('e' :: lptr) = some o) :
    Faithful o r h'.session.engine ↔ Unmasked h ('e' :: lptr) := by
  have hkeeps : Keeps (Sound ksiErrorNone) (editNode true lptr) := by
    have hK := sound_compositional ksiErrorNone
    exact hK.bind (hK.orError _ trivial) fun _ => hK.bind (setIdRet_sound _ _) fun _ =>
      hK.bind (request_sound _) fun _ => hK.pure ()
  have hunmasked : Unmasked h ('e' :: lptr) ↔ ∀ id args, scanArgs lptr = some (id, args) →
      Editable h.session.engine id (String.ofList args) := by
    show (match scanArgs lptr with
      | none => True
      | some (id, args) => Editable h.session.engine id (String.ofList args)) ↔ _
    cases hscan : scanArgs lptr with
    | none => simp
    | some x =>
        constructor
        · rintro he id args ⟨⟩
          exact he
        · exact fun hall => hall x.1 x.2 rfl
  obtain ⟨rfl, hok | ⟨err, h₁, ⟨⟨hscan, rfl, hout⟩, -⟩, rfl⟩⟩ := handle_verb (by decide) rfl hr
    (wp_and (editNode_wp (w := w) hs lptr) (hkeeps h hs))
  · obtain ⟨⟨id, args, hscan, hid, hcase⟩, hs'⟩ := hok
    have hedit : Unmasked h ('e' :: lptr) ↔ Editable h.session.engine id (String.ofList args) := by
      rw [hunmasked]
      constructor
      · exact fun hall => hall id args hscan
      · rintro he id' args' hscan'
        rw [hscan] at hscan'
        cases hscan'
        exact he
    rw [hedit, faithful_of_none (by rw [Handler.reply_err, hs'.err]) fun hcarried id' hid' => ?_]
    · rcases hcase with ⟨hout, he, -⟩ | ⟨err, -, hout, he⟩ <;> rw [hout] at ho <;> cases ho
      · exact iff_of_true rfl he
      · exact iff_of_false nofun he
    · obtain ⟨-, -, rfl⟩ := Handler.reply_typeOf hid'
      rcases hcase with ⟨-, -, hlive⟩ | ⟨err, -, hout, -⟩
      · rwa [hid]
      · rw [hout, hcarried] at ho
        cases ho
  · rw [hout] at ho
    cases ho
    refine iff_of_true ⟨?_, ?_, ?_⟩ (hunmasked.mpr fun id args h => ?_)
    · simp [Handler.reply_err]
    · rintro _ ⟨⟩
      exact Handler.reply_err _ _
    · intro id hid
      exact absurd (Handler.reply_typeOf hid).2.1 nofun
    · rw [hscan] at h
      cases h

/-- `ksiEnginePause` and `ksiEngineResume` return no error. -/
theorem faithful_onPool {f : Playing → WorkerPool → KsiError × Playing × WorkerPool}
    {err : KsiError} (hs : Sound ksiErrorNone h)
    (hc : (c ≠ 'l' ∧ c ≠ '\x7b' ∧ c ≠ '\x7d') ∧ c ≠ 'n' ∧ c ≠ 'e')
    (hx : consumeVerb w true c lptr = onPool f >>= fun _ => pure false)
    (hf : ∀ p wp, (f p wp).1 = ksiErrorNone) (hr : handle w fuel (c :: lptr) h = some (some r, h'))
    (ho : o = .ofErr err) : Faithful o r h'.session.engine ↔ err = ksiErrorNone := by
  have hwp : wp True (onPool f) h (fun _ h' => h'.err = ksiErrorNone) fun _ _ => False := by
    unfold Prog.wp onPool
    simp only [hf, if_true]
    exact hs.err
  obtain ⟨rfl, herr | ⟨_, _, hfalse, -⟩⟩ := handle_verb hc.1 hx hr hwp
  · rw [faithful_of_none (by rw [Handler.reply_err, herr]) fun _ id hid => ?_, ho]
    · unfold Outcome.ofErr
      split <;> simp_all
    · obtain ⟨hn | he, -⟩ := Handler.reply_typeOf hid
      · exact absurd hn hc.2.1
      · exact absurd he hc.2.2
  · exact hfalse.elim

end Reply

/-- The lines that the outcome is about. -/
theorem outcome_verb {line : List Char} {o : Outcome} (ho : outcome w h line = some o) :
    ∃ c lptr, line = c :: lptr ∧ c ∈ ['n', 'w', 'b', 'd', 'r', 'u', 'e', 'P', 'R'] := by
  unfold outcome at ho
  split at ho
  case h_10 => cases ho
  all_goals exact ⟨_, _, rfl, by decide⟩

/-- **A reply is faithful exactly if no layer drops the error of the line**: whatever the
session has come to, the code is `ksiErrorNone` just when the engine has carried the
request out, and else the error that was found, and `report_type` is called for a node that
lives. -/
theorem faithful_iff {wp : WorkerPool} {framesPerBuffer : Nat} {line : List Char} {r : Reply}
    {o : Outcome} (hreach : Reaches step Free (Handler.init wp framesPerBuffer) h)
    (hr : handle w fuel line h = some (some r, h')) (ho : outcome w h line = some o) :
    Faithful o r h'.session.engine ↔ Unmasked h line := by
  have hs := sound_of_reaches hreach
  have hK := sound_compositional ksiErrorNone
  obtain ⟨c, lptr, rfl, hc⟩ := outcome_verb ho
  simp only [List.mem_cons, List.not_mem_nil, or_false] at hc
  rcases hc with rfl | rfl | rfl | rfl | rfl | rfl | rfl | rfl | rfl
  case inl =>
    refine iff_of_true (faithful_of_tells hs (by decide) (by decide) rfl ?_ (newNode_tells lptr)
      (fun _ => newNode_live hs lptr) hr ho) trivial
    exact hK.bind (hK.orError _ trivial) fun _ => hK.bind (request_sound _) fun _ =>
      setIdRet_sound _ _
  case inr.inl =>
    refine iff_of_true (faithful_of_tells hs (by decide) (by decide) rfl ?_ (makeWire_tells lptr)
      nofun hr ho) trivial
    exact hK.bind (hK.orError _ trivial) fun _ => (lineWalks_sound _).gain _
  case inr.inr.inl =>
    refine iff_of_true (faithful_of_tells hs (by decide) (by decide) rfl ?_ (makeBias_tells lptr)
      nofun hr ho) trivial
    exact hK.bind (hK.orError _ trivial) fun _ => (lineWalks_sound _).gain _
  case inr.inr.inr.inl =>
    exact iff_of_true (faithful_of_tells hs (by decide) (by decide) rfl
      ((lineWalks_sound _).edit _ _)
      (detachNodes_tells lptr) nofun hr ho) trivial
  case inr.inr.inr.inr.inl =>
    exact iff_of_true (faithful_of_tells hs (by decide) (by decide) rfl
      ((lineWalks_sound _).edit _ _)
      (removeNode_tells lptr) nofun hr ho) trivial
  case inr.inr.inr.inr.inr.inl =>
    exact iff_of_true (faithful_of_tells hs (by decide) (by decide) rfl
      ((lineWalks_sound _).edit _ _)
      (removeWire_tells lptr) nofun hr ho) trivial
  case inr.inr.inr.inr.inr.inr.inl => exact faithful_edit hs hr ho
  case inr.inr.inr.inr.inr.inr.inr.inl =>
    rw [faithful_onPool hs (by decide) rfl (fun p wp => ?_) hr (Option.some.inj ho).symm,
      pauseErr_eq_none]
    · rfl
    · unfold ksiEnginePause
      split <;> rfl
  case inr.inr.inr.inr.inr.inr.inr.inr =>
    rw [faithful_onPool hs (by decide) rfl (fun p wp => ?_) hr (Option.some.inj ho).symm,
      resumeErr_eq_none _ hs.initialised]
    · rfl
    · unfold ksiEngineResume
      split <;> rfl

/-- No numbers but integers, no files and no audio device. -/
def bareWorld : World where
  scanFloat := fun _ => none
  file := fun _ => none
  timeSeq := fun _ => .error ksiErrorFileSystem
  paIOInit := ksiErrorAudio

/-- An Id node is added and then given a second port. -/
theorem faithful_iff_addPort : ∃ h r h' o,
    Reaches step Free (Handler.init { enginesAlive := 0, hangingPosts := 0 } 64) h ∧
    handle bareWorld 0 ['e', '0', ' ', '2', '\n'] h = some (some r, h') ∧
    outcome bareWorld h ['e', '0', ' ', '2', '\n'] = some o ∧
    (Faithful o r h'.session.engine ↔ Unmasked h ['e', '0', ' ', '2', '\n']) := by
  obtain ⟨⟨h, r, h', o⟩, hx⟩ : ∃ x : Handler × Reply × Handler × Outcome,
      ((run step (Handler.init { enginesAlive := 0, hangingPosts := 0 } 64)
        [(bareWorld, 0, ['n', 'n', '1', '\n'])]).bind fun h =>
          (handle bareWorld 0 ['e', '0', ' ', '2', '\n'] h).bind fun p => p.1.bind fun r =>
            (outcome bareWorld h ['e', '0', ' ', '2', '\n']).map fun o => (h, r, p.2, o)) =
              some x :=
    Option.isSome_iff_exists.mp (by decide +kernel)
  obtain ⟨h₁, hrun, hx⟩ := Option.bind_eq_some_iff.mp hx
  obtain ⟨⟨r₁, h₂⟩, hr, hx⟩ := Option.bind_eq_some_iff.mp hx
  obtain ⟨r₂, rfl, hx⟩ := Option.bind_eq_some_iff.mp hx
  obtain ⟨o₁, ho, heq⟩ := Option.map_eq_some_iff.mp hx
  cases heq
  have hreach := reaches_of_run _ hrun
  exact ⟨_, _, _, _, hreach, hr, ho, faithful_iff hreach hr ho⟩

/-- An edit of a node that does not exist is reported as carried out, with the types of
that node. -/
theorem not_faithful_missingNode : ∃ h r h' o,
    Reaches step Free (Handler.init { enginesAlive := 0, hangingPosts := 0 } 64) h ∧
    handle bareWorld 0 ['e', '5', ' ', '1', '\n'] h = some (some r, h') ∧
    outcome bareWorld h ['e', '5', ' ', '1', '\n'] = some o ∧ ¬ Faithful o r h'.session.engine := by
  have hr : (handle bareWorld 0 ['e', '5', ' ', '1', '\n']
      (Handler.init { enginesAlive := 0, hangingPosts := 0 } 64)).map (·.1) =
        some (some { err := ksiErrorNone, id := none, typeOf := some 5 }) := by decide +kernel
  obtain ⟨⟨r, h'⟩, hr, heq⟩ := Option.map_eq_some_iff.mp hr
  cases heq
  refine ⟨_, _, _, .refused ksiErrorIdNotFound, .refl, hr, by decide +kernel, fun hf => ?_⟩
  exact absurd (hf.none_iff.mp rfl) nofun

end Ksi.Cmd
