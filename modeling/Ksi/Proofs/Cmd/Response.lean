/-
Whether client and daemon agree on where a reply ends.

The last field of a reply, the types of the outputs, has a newline after it, and
`graph-instance-add-node` reads it up to a ';'.  So a node that has been created takes the
client out of step: the newline and the code of the next reply become part of the types,
or the client waits for a reply that it has not asked for.  Of a command that failed the
client reads the rest of the line, and stays in step.

A command fails unless the engine is initialised and the component's id is the number of a
plugin, which is all there is to say about a sequence: the lines of the others change
neither.
-/
import Ksi.Proofs.Cmd
import Ksi.Cmd.Response

namespace Ksi.Cmd

open Dag Pool Prog Runs KsiError Fields

variable {w : World} {fuel : Nat} {h h' : Handler} {d d' : Daemon}
  {componentId : List Char} {m : NewNode} {printed : List Char}

/-! ### What a reply should be read as -/

/-- A reply in the form that the documentation gives it. -/
def NewNode.text (m : NewNode) : List Char :=
  printD (code m.err) ++ ';' :: (m.emsg ++ ';' :: (printD m.nid ++ ';' :: (m.itypes ++ ';' ::
    (m.otypes ++ ['\n']))))

/-- What the client should make of it. -/
def NewNode.added (m : NewNode) : Added :=
  if m.err = ksiErrorNone then .success (printD m.nid) m.itypes m.otypes
  else .failed (printD (code m.err))
    (m.emsg ++ ';' :: (printD m.nid ++ ';' :: (m.itypes ++ ';' :: m.otypes)))

/-- The component's id names a plugin. -/
def Loads (componentId : List Char) : Prop :=
  ∃ type, scanType (addNodeLine componentId).tail = some type ∧
    (inlinePorts (ksiNodeTypeInlineId type)).isSome

/-! ### Fields of a reply -/

theorem not_mem_printD {c : Char} (hc : c.isDigit = false) (hminus : c ≠ '-') (n : Int) :
    c ∉ printD n := by
  unfold printD
  intro hmem
  rcases List.mem_append.mp hmem with hsign | hdigits
  · split at hsign
    · exact hminus (List.mem_singleton.mp hsign)
    · exact List.not_mem_nil hsign
  · have hdigit := Nat.isDigit_of_mem_toDigits (by decide) (by decide) hdigits
    exact absurd (hc.symm.trans hdigit) nofun

/-- A type is printed as a letter. -/
theorem ksiDataTypeToCharacter_letter {type : PortType} {c : Char}
    (hc : ksiDataTypeToCharacter type = some c) : c.isAlpha := by
  unfold ksiDataTypeToCharacter at hc
  dsimp only at hc
  split_ifs at hc <;> cases hc <;> rfl

theorem letters_of_mapM {α : Type} {f : α → Option Char} (hf : ∀ a c, f a = some c → c.isAlpha) :
    ∀ {l : List α} {cs : List Char}, l.mapM f = some cs → ∀ c ∈ cs, c.isAlpha := by
  intro l
  induction l with
  | nil =>
      intro cs hcs
      cases hcs
      nofun
  | cons a l ih =>
      intro cs hcs
      rw [List.mapM_cons] at hcs
      obtain ⟨c, hc, hcs⟩ := Option.bind_eq_some_iff.mp hcs
      obtain ⟨cs', hcs', heq⟩ := Option.bind_eq_some_iff.mp hcs
      cases heq
      exact List.forall_mem_cons.mpr ⟨hf a c hc, ih hcs'⟩

/-- What the fields of a reply are free of. -/
structure Plain (m : NewNode) : Prop where
  emsg : '\n' ∉ m.emsg
  quiet : m.err = ksiErrorNone → m.emsg = []
  itypes : ∀ c ∈ m.itypes, c.isAlpha
  otypes : ∀ c ∈ m.otypes, c.isAlpha

theorem not_mem_of_letters {cs : List Char} {c : Char} (hcs : ∀ c ∈ cs, c.isAlpha)
    (hc : c.isAlpha = false) : c ∉ cs := fun hmem => absurd (hc.symm.trans (hcs c hmem)) nofun

theorem printD_code_eq_zero {err : KsiError} : printD (code err) = ['0'] ↔ err = ksiErrorNone := by
  cases err <;> decide

/-- The reply to a command that failed is read as it was meant, up to its end. -/
theorem read_failed (hplain : Plain m) (herr : m.err ≠ ksiErrorNone) (rest : List Char) :
    graphInstanceAddNode (m.text ++ rest) = some (m.added, rest) := by
  have hline : '\n' ∉ m.emsg ++ ';' :: (printD m.nid ++ ';' :: (m.itypes ++ ';' :: m.otypes)) := by
    simp only [List.mem_append, List.mem_cons, not_or]
    exact ⟨hplain.emsg, by decide, not_mem_printD rfl (by decide) _, by decide,
      not_mem_of_letters hplain.itypes rfl, by decide, not_mem_of_letters hplain.otypes rfl⟩
  have hcode : ';' ∉ printD (code m.err) := not_mem_printD rfl (by decide) _
  have htext : m.text ++ rest = printD (code m.err) ++ ';' ::
      ((m.emsg ++ ';' :: (printD m.nid ++ ';' :: (m.itypes ++ ';' :: m.otypes))) ++
        '\n' :: rest) := by
    simp [NewNode.text]
  unfold graphInstanceAddNode getString getLine NewNode.added
  rw [htext, readTo_field hcode, if_neg herr]
  simp only [Option.bind_eq_bind, Option.bind_some]
  rw [if_neg (mt printD_code_eq_zero.mp herr), readTo_field hline]
  rfl

/-- The reply to a command that created a node never is. -/
theorem read_success (hplain : Plain m) (herr : m.err = ksiErrorNone) (rest rest' : List Char) :
    graphInstanceAddNode (m.text ++ rest) ≠ some (m.added, rest') := by
  have htext : m.text ++ rest = ['0'] ++ ';' :: ([] ++ ';' :: (printD m.nid ++ ';' ::
      (m.itypes ++ ';' :: (m.otypes ++ '\n' :: rest)))) := by
    rw [NewNode.text, printD_code_eq_zero.mpr herr, hplain.quiet herr]
    simp
  unfold graphInstanceAddNode getString NewNode.added
  rw [htext, readTo_field (by decide), if_pos herr]
  simp only [Option.bind_eq_bind, Option.bind_some, if_true]
  rw [readTo_field List.not_mem_nil]
  simp only [Option.bind_some]
  rw [readTo_field (not_mem_printD rfl (by decide) _)]
  simp only [Option.bind_some]
  rw [readTo_field (not_mem_of_letters hplain.itypes rfl)]
  simp only [Option.bind_some]
  intro hread
  -- the newline is where the client looks for a ';'
  obtain ⟨⟨otypes, rest₁⟩, hotypes, heq⟩ := Option.bind_eq_some_iff.mp hread
  cases heq
  exact readTo_past (not_mem_of_letters hplain.otypes rfl) (by decide) hotypes

/-! ### What the daemon answers -/

/-- A node of type `n` is not a final one. -/
theorem scanType_normal {l : List Char} {type : BitVec 32}
    (htype : scanType ('n' :: l) = some type) :
    type &&& ksiNodeTypeOutputMask ≠ ksiNodeTypeOutputFinal := by
  obtain ⟨⟨funcId, rest⟩, -, heq⟩ := Option.bind_eq_some_iff.mp htype
  obtain rfl := Option.some.inj heq
  intro hfinal
  have hbit := congrArg (·.getLsbD 4) hfinal
  simp [ksiNodeTypeOutputNormal, ksiNodeTypeOutputMask, ksiNodeTypeOutputFinal] at hbit

/-- What an `n` of the client comes to: the state before it decides. -/
theorem newNode_wp : wp True (newNode true (addNodeLine componentId).tail) h
    (fun _ h' => (h.session.engine.playing ≠ -2 ∧ Loads componentId) ∧
      h'.session.engine.playing = h.session.engine.playing ∧ h'.err = h.err)
    fun err h' => (err ≠ ksiErrorNone ∧ (h.session.engine.playing ≠ -2 → ¬ Loads componentId)) ∧
      h'.session.engine.playing = h.session.engine.playing := by
  unfold newNode
  rw [wp_bind, wp_orError]
  constructor
  · intro type htype
    have hfixed : Within Fixed ((Call.addNode type).kernel .editing) := fixed_engineWalks.kernel _
    have hkernel : wp True ((Call.addNode type).kernel .editing) h.session.engine
        (fun _ _ => h.session.engine.playing ≠ -2 ∧ Loads componentId)
        fun _ _ => h.session.engine.playing ≠ -2 → ¬ Loads componentId := by
      unfold Call.kernel
      rw [wp_bind]
      refine impl_ksiEngineAddNode_wp (fun _ => rfl) type (fun err hrefused hplaying hloads => ?_)
        fun hplaying ports s' hports _ _ => ⟨hplaying, type, htype, by rw [hports]; rfl⟩
      obtain ⟨type', htype', hports⟩ := hloads
      obtain rfl := Option.some.inj (htype'.symm.trans htype)
      rcases hrefused with huninit | hfinal | hnone
      · exact hplaying huninit
      · exact scanType_normal htype hfinal.1
      · rw [hnone] at hports
        exact absurd hports nofun
    rw [wp_bind]
    refine request_wp (by exact fun _ _ => nofun) (wp_mono (wp_and hkernel (hfixed _))
      (fun id e he _ _ => ?_) fun err e he herr _ _ => ⟨⟨herr, he.1⟩, he.2.playing⟩)
    unfold setIdRet
    rw [wp_when]
    exact ⟨fun _ => ⟨he.1, he.2.playing, rfl⟩, fun h => absurd rfl h⟩
  · rintro hnone
    refine ⟨⟨by decide, ?_⟩, rfl⟩
    rintro - ⟨type, htype, -⟩
    exact absurd (hnone.symm.trans htype) nofun

/-- A commit leaves `playing` as it is. -/
theorem commit_playing : wp True commit h
    (fun _ h' => h'.session.engine.playing = h.session.engine.playing) fun _ _ => False := by
  unfold Prog.wp commit ksiEngineCommit
  by_cases hq : h.session.engine.playing = -2 ∨ h.session.syncCmds = []
  · rw [if_pos hq]
    rfl
  · rw [if_neg hq]
    cases hr : ksiMVCCCommitter h.session h.other with
    | none => trivial
    | some r =>
        unfold ksiMVCCCommitter at hr
        obtain ⟨⟨rs, e⟩, hloop, rfl⟩ := Option.map_eq_some_iff.mp hr
        have hcall : ∀ c : Call, Keeps (fun e : Engine => e.playing = h.session.engine.playing)
            (c.kernel .committing) := fun c e he =>
          wp_mono (fixed_engineWalks.kernel c e) (fun _ _ hf => hf.playing.trans he)
            fun _ _ hf => hf.playing.trans he
        exact commitLoop_keeps hcall _ hloop rfl

/-- The daemon's next turn begins without an error, and the engine is as initialised as it
was. -/
theorem finish_playing {r : Except KsiError Unit} (hfin : finish h = some (r, h')) :
    h'.session.engine.playing = h.session.engine.playing ∧ h'.err = ksiErrorNone := by
  have hwp : wp True finish h (fun _ h' => h'.session.engine.playing = h.session.engine.playing ∧
      h'.err = ksiErrorNone) fun _ _ => False := by
    unfold finish
    rw [wp_bind, wp_read]
    refine ⟨fun _ => trivial, fun scope _ => ?_⟩
    rw [wp_bind, wp_when]
    exact ⟨fun _ => wp_mono commit_playing (fun _ _ hplaying => ⟨hplaying, rfl⟩) fun _ _ h => h,
      fun _ => ⟨rfl, rfl⟩⟩
  cases r with
  | ok a => exact of_wp_ok hwp hfin
  | error e => exact (of_wp_error hwp hfin).elim

theorem portTypes_letters {e : Engine} {id : Int} {types : List Char × List Char}
    (htypes : portTypes e id = some types) :
    (∀ c ∈ types.1, c.isAlpha) ∧ ∀ c ∈ types.2, c.isAlpha := by
  obtain ⟨n, -, htypes⟩ := Option.bind_eq_some_iff.mp htypes
  obtain ⟨node, -, htypes⟩ := Option.bind_eq_some_iff.mp htypes
  obtain ⟨itypes, hitypes, htypes⟩ := Option.bind_eq_some_iff.mp htypes
  obtain ⟨otypes, hotypes, heq⟩ := Option.bind_eq_some_iff.mp htypes
  cases heq
  exact ⟨letters_of_mapM (fun _ _ => ksiDataTypeToCharacter_letter) hitypes,
    letters_of_mapM (fun _ _ => ksiDataTypeToCharacter_letter) hotypes⟩

/-- What is printed for an `n` is the reply, and its fields are the command's own. -/
theorem print_newNode {errtxt : List Char} (hlf : '\n' ∉ errtxt) {e : Engine}
    (hquiet : h.err = ksiErrorNone → errtxt = [])
    (hprinted : (h.reply (some 'n')).print (some 'n') errtxt e = some printed)
    (hm : (h.reply (some 'n')).newNode errtxt e = some m) :
    printed = m.text ∧ m.err = h.err ∧ Plain m := by
  unfold Handler.reply Reply.newNode at hm
  unfold Handler.reply Reply.print Reply.printTypes report_type at hprinted
  by_cases herr : h.err = ksiErrorNone
  · simp only [herr, if_true] at hm hprinted
    obtain ⟨types, htypes, rfl⟩ := Option.map_eq_some_iff.mp hm
    rw [htypes] at hprinted
    obtain ⟨hitypes, hotypes⟩ := portTypes_letters htypes
    refine ⟨?_, herr.symm, hlf, fun _ => hquiet herr, hitypes, hotypes⟩
    rw [← Option.some.inj hprinted]
    simp [NewNode.text]
  · simp only [herr, if_false] at hm hprinted
    obtain rfl := Option.some.inj hm
    refine ⟨?_, rfl, hlf, fun h => absurd h herr, nofun, nofun⟩
    rw [← Option.some.inj hprinted]
    simp [NewNode.text]

/-- What `errtxt` points to has no newline. -/
theorem errtxtNew_lf {lptr errtxt : List Char} {err : KsiError} (hlf : '\n' ∉ errtxt) :
    '\n' ∉ errtxtNew lptr err errtxt := by
  unfold errtxtNew
  split
  · decide
  · split_ifs
    · decide
    · decide
    · exact List.not_mem_nil
    · exact hlf

theorem errtxtNew_none {errtxt : List Char} (hloads : Loads componentId) :
    errtxtNew (addNodeLine componentId).tail ksiErrorNone errtxt = [] := by
  obtain ⟨type, htype, -⟩ := hloads
  obtain ⟨funcId, hfuncId, -⟩ := Option.bind_eq_some_iff.mp htype
  have hscan : scanD (componentId ++ ['\n']) = some funcId := hfuncId
  unfold errtxtNew addNodeLine
  simp [hscan]

/-- The reply to one command. -/
theorem Daemon.newNode_spec (herr : d.handler.err = ksiErrorNone) (hlf : '\n' ∉ d.errtxt)
    (hnew : d.newNode w fuel componentId = some ((m, printed), d')) :
    printed = m.text ∧ Plain m ∧
      (m.err ≠ ksiErrorNone ↔ (d.handler.session.engine.playing ≠ -2 → ¬ Loads componentId)) ∧
      d'.handler.session.engine.playing = d.handler.session.engine.playing ∧
      d'.handler.err = ksiErrorNone ∧ '\n' ∉ d'.errtxt := by
  unfold Daemon.newNode at hnew
  dsimp only at hnew
  split at hnew
  · rename_i r h₁ hr
    obtain ⟨text, hprint, hnew⟩ := Option.bind_eq_some_iff.mp hnew
    obtain ⟨reply, hreply, hnew⟩ := Option.bind_eq_some_iff.mp hnew
    obtain ⟨⟨res, h₂⟩, hfin, heq⟩ := Option.bind_eq_some_iff.mp hnew
    cases heq
    have hlf' : '\n' ∉ errtxtNew (addNodeLine componentId).tail r.err d.errtxt := errtxtNew_lf hlf
    obtain ⟨rfl, hcase⟩ := handle_verb (c := 'n') (by decide) rfl hr newNode_wp
    obtain ⟨hplaying, herr'⟩ := finish_playing hfin
    rw [Handler.reply_err] at hlf' hprint hreply
    rcases hcase with ⟨⟨hinit, hloads⟩, hsame, herr₁⟩ | ⟨err, h₃, ⟨⟨herr₁, hrefused⟩, hsame⟩, rfl⟩
    · rw [herr] at herr₁
      obtain ⟨htext, hcode, hplain⟩ := print_newNode hlf' (fun _ => by
        rw [herr₁]
        exact errtxtNew_none hloads) hprint hreply
      refine ⟨htext, hplain, ?_, hplaying.trans hsame, herr', hlf'⟩
      exact iff_of_false (fun h => h (hcode.trans herr₁)) fun h => h hinit hloads
    · obtain ⟨htext, hcode, hplain⟩ := print_newNode hlf' (fun h => absurd h herr₁) hprint hreply
      refine ⟨htext, hplain, ?_, hplaying.trans hsame, herr', hlf'⟩
      exact iff_of_true (fun h => herr₁ (hcode.symm.trans h)) hrefused
  · cases hnew

/-- The replies to one command after another. -/
theorem Daemon.newNodes_spec : ∀ {componentIds : List (List Char)} {d d' : Daemon}
    {replies : List (NewNode × List Char)}, d.handler.err = ksiErrorNone → '\n' ∉ d.errtxt →
    d.newNodes w fuel componentIds = some (replies, d') →
      (∀ r ∈ replies, r.2 = r.1.text ∧ Plain r.1) ∧
        ((∀ r ∈ replies, r.1.err ≠ ksiErrorNone) ↔
          ∀ c ∈ componentIds, d.handler.session.engine.playing ≠ -2 → ¬ Loads c) := by
  intro componentIds
  induction componentIds with
  | nil =>
      intro d d' replies _ _ hrun
      cases hrun
      exact ⟨nofun, iff_of_true nofun nofun⟩
  | cons c rest ih =>
      intro d d' replies herr hlf hrun
      obtain ⟨⟨⟨m, printed⟩, d₁⟩, hnew, hrun⟩ := Option.bind_eq_some_iff.mp hrun
      obtain ⟨⟨replies', d₂⟩, hrest, heq⟩ := Option.bind_eq_some_iff.mp hrun
      cases heq
      obtain ⟨htext, hplain, hfailed, hplaying, herr', hlf'⟩ := Daemon.newNode_spec herr hlf hnew
      obtain ⟨hreplies, hrefused⟩ := ih herr' hlf' hrest
      rw [hplaying] at hrefused
      rw [List.forall_mem_cons, List.forall_mem_cons, List.forall_mem_cons, hfailed, hrefused]
      exact ⟨⟨⟨htext, hplain⟩, hreplies⟩, Iff.rfl⟩

/-! ### Reading them -/

/-- **The client reads the replies to a sequence of commands as they were meant, and is left
where the next reply begins, exactly if no command of the sequence creates a node.** -/
theorem reads_newNodes_iff {componentIds : List (List Char)} {replies : List (NewNode × List Char)}
    (herr : d.handler.err = ksiErrorNone) (hlf : '\n' ∉ d.errtxt)
    (hrun : d.newNodes w fuel componentIds = some (replies, d')) (tail : List Char) :
    readMany graphInstanceAddNode replies.length (replies.flatMap (·.2) ++ tail) =
        some (replies.map (·.1.added), tail) ↔
      ∀ c ∈ componentIds, d.handler.session.engine.playing ≠ -2 → ¬ Loads c := by
  obtain ⟨hreplies, hrefused⟩ := Daemon.newNodes_spec herr hlf hrun
  rw [← hrefused]
  refine readMany_iff tail (fun r hr rest herr => ?_) fun r hr rest rest' hok => ?_
  · obtain ⟨htext, hplain⟩ := hreplies r hr
    rw [htext]
    exact read_failed hplain herr rest
  · obtain ⟨htext, hplain⟩ := hreplies r hr
    rw [htext]
    exact read_success hplain (not_not.mp hok) rest rest'

/-- The daemon after the engine has been initialised. -/
def freshDaemon : Daemon where
  handler := Handler.init { enginesAlive := 0, hangingPosts := 0 } 64
  errtxt := []

/-- Neither 9 nor `x` is a plugin. -/
theorem reads_newNodes_iff_refused : ∃ replies d',
    freshDaemon.newNodes bareWorld 0 [['9'], ['x']] = some (replies, d') ∧
    (readMany graphInstanceAddNode replies.length (replies.flatMap (·.2) ++ []) =
        some (replies.map (·.1.added), []) ↔
      ∀ c ∈ [['9'], ['x']], freshDaemon.handler.session.engine.playing ≠ -2 → ¬ Loads c) := by
  obtain ⟨⟨replies, d'⟩, hrun⟩ := Option.isSome_iff_exists.mp
    (show (freshDaemon.newNodes bareWorld 0 [['9'], ['x']]).isSome by decide +kernel)
  exact ⟨replies, d', hrun, reads_newNodes_iff rfl List.not_mem_nil hrun []⟩

/-- The client waits for the end of the output types of an Id node; with the reply to a
command that failed behind it, the code of that reply is one of them. -/
theorem not_reads_newNodes : ∃ replies d',
    freshDaemon.newNodes bareWorld 0 [['1']] = some (replies, d') ∧
    graphInstanceAddNode (replies.flatMap (·.2)) = none ∧
    (graphInstanceAddNode (replies.flatMap (·.2) ++ ['2', '0', ';', ';', '0', ';', ';', '\n'])).map
      (·.1) =
      some (.success ['0'] ['f'] ['f', '\n', '2', '0']) ∧
    ∀ tail, readMany graphInstanceAddNode replies.length (replies.flatMap (·.2) ++ tail) ≠
      some (replies.map (·.1.added), tail) := by
  have hrun : (freshDaemon.newNodes bareWorld 0 [['1']]).map (·.1) = some
      [({ err := ksiErrorNone, emsg := [], nid := 0, itypes := ['f'], otypes := ['f'] },
        ['0', ';', ';', '0', ';', 'f', ';', 'f', '\n'])] := by decide +kernel
  obtain ⟨⟨replies, d'⟩, hrun, heq⟩ := Option.map_eq_some_iff.mp hrun
  obtain rfl := heq
  refine ⟨_, d', hrun, by decide, by decide, fun tail h => ?_⟩
  obtain ⟨⟨added, rest⟩, hread, h⟩ := Option.bind_eq_some_iff.mp h
  obtain rfl : added = _ := (List.cons.inj (Prod.mk.inj (Option.some.inj h)).1).1
  refine read_success
    (m := { err := ksiErrorNone, emsg := [], nid := 0, itypes := ['f'], otypes := ['f'] })
    ⟨List.not_mem_nil, fun _ => rfl, List.forall_mem_singleton.mpr rfl,
      List.forall_mem_singleton.mpr rfl⟩ rfl tail rest ?_
  exact hread

end Ksi.Cmd
