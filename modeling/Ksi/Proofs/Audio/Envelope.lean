/-
The envelope and the events on its gate.

The frame loop looks at one event at a time: the one it holds is examined at the frame of
its time stamp, and only then the next one is fetched.  `Following` says how far the loop
has come in the events, and `frame_following` that a frame goes one event further exactly
if the event in hand is due.  So an event that is fetched at its own frame or later waits
for ever, and with it all that come after it: every event is handled exactly if no two of
them share a time stamp.
-/
import Ksi.Audio.Scarlet
import Ksi.Proofs.Audio.Events

namespace Ksi.Audio.Scarlet

open Ksi.Dag Stage

/-! ### What is asked of the node -/

/-- The stage after an event: gate value 0 starts the attack of a node that is silent or
on its way there, gate value 1 the release of one that sounds. -/
def Stage.gate (stage : Stage) (data : KsiData) : Stage :=
  if (stage = stageHalt ∨ stage = stageRelease) ∧ data = 0 then stageAttack
  else if (stage ≠ stageHalt ∧ stage ≠ stageRelease) ∧ data = 1 then stageRelease
  else stage

/-- Each event has been examined once and in order, at the frame of its time stamp, and its
gate value has decided what became of the stage; none is left in hand. -/
structure HandlesEvents (s : Adsr) (timeStamp : Nat) (events : List KsiEvent) : Prop where
  once : s.examined.map (·.event) = events
  frame : ∀ x ∈ s.examined, x.event.timeStamp = timeStamp + x.frame
  gate : ∀ x ∈ s.examined, x.after = x.before.gate x.event.data
  read : s.nextEvent = none

/-- The events are those of one buffer, in the order of their time stamps. -/
structure InBuffer (timeStamp bufsize : Nat) (events : List KsiEvent) : Prop where
  sorted : events.Pairwise fun e e' => e.timeStamp ≤ e'.timeStamp
  le : ∀ e ∈ events, timeStamp ≤ e.timeStamp
  lt : ∀ e ∈ events, e.timeStamp < timeStamp + bufsize
  size : ∀ e ∈ events, e.timeStamp < 2 ^ 64

/-! ### How far the loop has come -/

/-- The loop has examined the first `c` events, and holds the one after them. -/
structure Following (m : EventMemory) (n : NodePtr) (timeStamp : Nat) (events : List KsiEvent)
    (c : Nat) (s : Adsr) : Prop where
  memory : s.memory = m.afterCalls n 0 (c + 1)
  next : s.nextEvent = events[c]?
  once : s.examined.map (·.event) = events.take c
  frame : ∀ x ∈ s.examined, x.event.timeStamp = timeStamp + x.frame
  gate : ∀ x ∈ s.examined, x.after = x.before.gate x.event.data

variable {f : Floats} {inp : Nat → KsiData} {m : EventMemory} {n : NodePtr}
  {timeStamp bufsize c i j : Nat} {events : List KsiEvent} {s : Adsr} {env : AdsrEnv}

/-- Inside of the buffer the time stamps do not wrap. -/
theorem InBuffer.stampAt_iff (hin : InBuffer timeStamp bufsize events) (ht : timeStamp < 2 ^ 64)
    (hF : bufsize < 2 ^ 31) (hi : i < bufsize) {e : KsiEvent} (he : e ∈ events) :
    e.timeStamp = stampAt timeStamp i ↔ e.timeStamp = timeStamp + i := by
  have hle := hin.le e he
  have hsize := hin.size e he
  unfold stampAt
  omega

/-- The event in hand is due at frame `i`. -/
def Due (timeStamp : Nat) (events : List KsiEvent) (c i : Nat) : Prop :=
  ∃ e, events[c]? = some e ∧ e.timeStamp = timeStamp + i

theorem onEvent_stage (data : KsiData) :
    (env.onEvent f inp data).currentStage = env.currentStage.gate data := by
  unfold AdsrEnv.onEvent Stage.gate
  split
  · rfl
  · split
    · rfl
    · rfl

section Frame

variable (hin : InBuffer timeStamp bufsize events) (ht : timeStamp < 2 ^ 64)
  (hF : bufsize < 2 ^ 31) (hi : i < bufsize)
include hin ht hF hi

/-- An event that is not due is kept in hand. -/
theorem Following.wait (h : Following m n timeStamp events c s)
    (hdue : ¬ Due timeStamp events c i) : s.examine f inp timeStamp n i = s := by
  unfold Adsr.examine
  split
  · rfl
  · rename_i e hnext
    have he : events[c]? = some e := h.next ▸ hnext
    rw [if_neg]
    intro hstamp
    exact hdue ⟨e, he, (hin.stampAt_iff ht hF hi (List.mem_of_getElem? he)).mp hstamp⟩

/-- One that is due is examined, and the next one fetched. -/
theorem Following.examine (hreads : m.Reads n 0 events) (h : Following m n timeStamp events c s)
    (hdue : Due timeStamp events c i) :
    Following m n timeStamp events (c + 1) (s.examine f inp timeStamp n i) := by
  obtain ⟨e, he, heq⟩ := hdue
  have hnext : s.nextEvent = some e := h.next.trans he
  have hstamp := (hin.stampAt_iff ht hF hi (List.mem_of_getElem? he)).mpr heq
  unfold Adsr.examine
  rw [hnext]
  simp only [if_pos hstamp]
  refine ⟨?_, ?_, ?_, fun x hx => ?_, fun x hx => ?_⟩
  · rw [h.memory, ← EventMemory.afterCalls_succ]
  · rw [h.memory]
    exact hreads (c + 1)
  · rw [List.map_append, h.once, List.take_add_one, he]
    rfl
  · rcases List.mem_append.mp hx with hx | hx
    · exact h.frame x hx
    · obtain rfl := List.mem_singleton.mp hx
      exact heq
  · rcases List.mem_append.mp hx with hx | hx
    · exact h.gate x hx
    · obtain rfl := List.mem_singleton.mp hx
      exact onEvent_stage e.data

/-- **A frame goes on to the next event exactly if the one in hand is due**; the level and
the samples do not touch the events. -/
theorem frame_following (hreads : m.Reads n 0 events) (h : Following m n timeStamp events c s) :
    (¬ Due timeStamp events c i ∧
      Following m n timeStamp events c (s.frame f bufsize timeStamp n i)) ∨
    (Due timeStamp events c i ∧
      Following m n timeStamp events (c + 1) (s.frame f bufsize timeStamp n i)) := by
  have hframe : ∀ c', Following m n timeStamp events c'
      (s.examine f (fun port => input s.ports bufsize port i) timeStamp n i) →
      Following m n timeStamp events c' (s.frame f bufsize timeStamp n i) := by
    intro c' h'
    exact ⟨h'.memory, h'.next, h'.once, h'.frame, h'.gate⟩
  by_cases hdue : Due timeStamp events c i
  · exact .inr ⟨hdue, hframe _ (h.examine hin ht hF hi hreads hdue)⟩
  · refine .inl ⟨hdue, hframe _ ?_⟩
    rwa [h.wait hin ht hF hi hdue]

end Frame

/-! ### Whole buffers -/

/-- The loop over the first `i` frames. -/
def Adsr.run (f : Floats) (bufsize timeStamp : Nat) (n : NodePtr) (s : Adsr) (i : Nat) : Adsr :=
  (List.range i).foldl (Adsr.frame f bufsize timeStamp n) s

theorem Adsr.run_succ : s.run f bufsize timeStamp n (i + 1) =
    (s.run f bufsize timeStamp n i).frame f bufsize timeStamp n i := by
  unfold Adsr.run
  rw [List.range_succ, List.foldl_append]
  rfl

section Run

variable (hin : InBuffer timeStamp bufsize events) (ht : timeStamp < 2 ^ 64)
  (hF : bufsize < 2 ^ 31) (hreads : m.Reads n 0 events)
  (h : Following m n timeStamp events 0 s)
include hin ht hF hreads h

/-- What each frame keeps of the count of events examined holds at the end of the loop. -/
theorem run_following (Inv : Nat → Nat → Prop) (hinit : Inv 0 0)
    (hwait : ∀ i c, Inv i c → ¬ Due timeStamp events c i → Inv (i + 1) c)
    (hexamine : ∀ i c, Inv i c → Due timeStamp events c i → Inv (i + 1) (c + 1)) :
    ∃ c, Inv bufsize c ∧
      Following m n timeStamp events c (s.run f bufsize timeStamp n bufsize) := by
  have hall : ∀ i ≤ bufsize, ∃ c, Inv i c ∧
      Following m n timeStamp events c (s.run f bufsize timeStamp n i) := by
    intro i
    induction i with
    | zero =>
        intro _
        exact ⟨0, hinit, h⟩
    | succ i ih =>
        intro hi
        obtain ⟨c, hinv, hfollow⟩ := ih (by omega)
        have hlt : i < bufsize := hi
        rw [Adsr.run_succ]
        rcases frame_following (f := f) hin ht hF hlt hreads hfollow with
          ⟨hdue, hnext⟩ | ⟨hdue, hnext⟩
        · exact ⟨c, hwait i c hinv hdue, hnext⟩
        · exact ⟨c + 1, hexamine i c hinv hdue, hnext⟩
  exact hall bufsize (Nat.le_refl _)

/-- With time stamps that increase, the events before a frame have been examined, and no
other ones; so at the end of the buffer all have. -/
theorem run_distinct
    (hdistinct : events.Pairwise fun e e' => e.timeStamp < e'.timeStamp) :
    ∃ c, events.length ≤ c ∧
      Following m n timeStamp events c (s.run f bufsize timeStamp n bufsize) := by
  have hwait : ∀ i c, (∀ j (hj : j < events.length),
      j < c ↔ events[j].timeStamp < timeStamp + i) → ¬ Due timeStamp events c i →
      ∀ j (hj : j < events.length), j < c ↔ events[j].timeStamp < timeStamp + (i + 1) := by
    intro i c hinv hdue j hj
    constructor
    · intro hjc
      have := (hinv j hj).mp hjc
      omega
    · intro hlt
      by_contra hge
      have hc : c < events.length := by omega
      -- the event in hand is not later than this one, and not before the frame
      have hcj : events[c].timeStamp ≤ events[j].timeStamp := by
        rcases Nat.lt_or_eq_of_le (Nat.le_of_not_lt hge) with hlt' | rfl
        · exact List.pairwise_iff_getElem.mp hin.sorted c j hc hj hlt'
        · exact Nat.le_refl _
      have hci : ¬ events[c].timeStamp < timeStamp + i := by
        intro hci
        exact Nat.lt_irrefl c ((hinv c hc).mpr hci)
      exact hdue ⟨events[c], List.getElem?_eq_getElem hc, by omega⟩
  have hexamine : ∀ i c, (∀ j (hj : j < events.length),
      j < c ↔ events[j].timeStamp < timeStamp + i) → Due timeStamp events c i →
      ∀ j (hj : j < events.length), j < c + 1 ↔ events[j].timeStamp < timeStamp + (i + 1) := by
    intro i c hinv hdue j hj
    obtain ⟨e, he, heq⟩ := hdue
    obtain ⟨hc, rfl⟩ := List.getElem?_eq_some_iff.mp he
    constructor
    · intro hjc
      rcases Nat.lt_succ_iff_lt_or_eq.mp hjc with hjc | rfl
      · have := (hinv j hj).mp hjc
        omega
      · omega
    · intro hlt
      by_contra hge
      have := List.pairwise_iff_getElem.mp hdistinct c j hc hj (by omega)
      omega
  have hinit : ∀ j (hj : j < events.length), j < 0 ↔ events[j].timeStamp < timeStamp + 0 := by
    intro j hj
    have := hin.le _ (List.getElem_mem hj)
    omega
  obtain ⟨c, hinv, hfollow⟩ := run_following (f := f) hin ht hF hreads h _ hinit hwait hexamine
  have hge : ¬ c < events.length := by
    intro hc
    exact Nat.lt_irrefl c ((hinv c hc).mpr (hin.lt _ (List.getElem_mem hc)))
  exact ⟨c, Nat.le_of_not_lt hge, hfollow⟩

/-- An event with the time stamp of the one before it is never examined. -/
theorem run_shared {e e' : KsiEvent} (he : events[j]? = some e) (he' : events[j + 1]? = some e')
    (hshared : e.timeStamp = e'.timeStamp) :
    ∃ c, c ≤ j + 1 ∧ Following m n timeStamp events c (s.run f bufsize timeStamp n bufsize) := by
  have hwait : ∀ i c, (c ≤ j ∨ (c = j + 1 ∧ e'.timeStamp < timeStamp + i)) →
      ¬ Due timeStamp events c i → c ≤ j ∨ (c = j + 1 ∧ e'.timeStamp < timeStamp + (i + 1)) := by
    intro i c hinv _
    omega
  have hexamine : ∀ i c, (c ≤ j ∨ (c = j + 1 ∧ e'.timeStamp < timeStamp + i)) →
      Due timeStamp events c i →
      c + 1 ≤ j ∨ (c + 1 = j + 1 ∧ e'.timeStamp < timeStamp + (i + 1)) := by
    intro i c hinv hdue
    obtain ⟨e'', hc, heq⟩ := hdue
    rcases hinv with hle | ⟨rfl, hlt⟩
    · rcases Nat.lt_or_eq_of_le hle with hlt | rfl
      · exact .inl hlt
      · obtain rfl := Option.some.inj (he.symm.trans hc)
        exact .inr ⟨rfl, by omega⟩
    · -- the frame of that event has passed
      obtain rfl := Option.some.inj (he'.symm.trans hc)
      omega
  obtain ⟨c, hinv, hfollow⟩ := run_following (f := f) hin ht hF hreads h _ (.inl (Nat.zero_le j))
    hwait hexamine
  exact ⟨c, by omega, hfollow⟩

end Run

/-! ### The node function -/

/-- What the node function starts the loop with. -/
def Adsr.begin (env : AdsrEnv) (m : EventMemory) (n : NodePtr) (ports : Ports) : Adsr where
  env := env
  memory := ((m.ksiNodeBeginIterateEvent n 0).ksiNodeGetNextEvent n 0).2
  nextEvent := ((m.ksiNodeBeginIterateEvent n 0).ksiNodeGetNextEvent n 0).1
  ports := ports
  examined := []

variable {ports : Ports}

theorem begin_following (hreads : m.Reads n 0 events) :
    Following m n timeStamp events 0 (Adsr.begin env m n ports) where
  memory := (EventMemory.afterCalls_succ 0).symm
  next := hreads 0
  once := rfl
  frame := fun x hx => (by cases hx)
  gate := fun x hx => (by cases hx)

/-- An idle node without events leaves at once; any other one runs its loop. -/
theorem kscarletADSR_cases (f : Floats) (bufsize timeStamp : Nat) (env : AdsrEnv) (ports : Ports)
    (hreads : m.Reads n 0 events) :
    (events = [] ∧ (kscarletADSR f bufsize timeStamp n env m ports).examined = [] ∧
      (kscarletADSR f bufsize timeStamp n env m ports).nextEvent = none) ∨
    ((kscarletADSR f bufsize timeStamp n env m ports).examined =
        ((Adsr.begin env m n ports).run f bufsize timeStamp n bufsize).examined ∧
      (kscarletADSR f bufsize timeStamp n env m ports).nextEvent =
        ((Adsr.begin env m n ports).run f bufsize timeStamp n bufsize).nextEvent) := by
  have hfirst : ((m.ksiNodeBeginIterateEvent n 0).ksiNodeGetNextEvent n 0).1 = events[0]? :=
    hreads 0
  by_cases hidle : (env.currentStage = stageHalt ∨ env.currentStage = stageSustain) ∧
      ((m.ksiNodeBeginIterateEvent n 0).ksiNodeGetNextEvent n 0).1 = none
  · have heq : kscarletADSR f bufsize timeStamp n env m ports =
        { Adsr.begin env m n ports with ports := clearAt (clearAt ports 0) 1 } := if_pos hidle
    have hnil : events = [] := by
      have hnone := hidle.2
      rw [hfirst] at hnone
      cases events with
      | nil => rfl
      | cons e rest => cases hnone
    rw [heq]
    exact .inl ⟨hnil, rfl, hidle.2⟩
  · have heq : kscarletADSR f bufsize timeStamp n env m ports =
        { (Adsr.begin env m n ports).run f bufsize timeStamp n bufsize with
          ports := setDirtyAt (setDirtyAt
            ((Adsr.begin env m n ports).run f bufsize timeStamp n bufsize).ports 0) 1 } :=
      if_neg hidle
    rw [heq]
    exact .inr ⟨rfl, rfl⟩

/-- Two events in a row share a time stamp, unless all time stamps increase. -/
theorem InBuffer.shared (hin : InBuffer timeStamp bufsize events)
    (hnot : ¬ events.Pairwise fun e e' => e.timeStamp < e'.timeStamp) :
    ∃ j e e', events[j]? = some e ∧ events[j + 1]? = some e' ∧ e.timeStamp = e'.timeStamp := by
  by_contra hall
  have : IsTrans KsiEvent fun e e' => e.timeStamp < e'.timeStamp := ⟨fun _ _ _ => Nat.lt_trans⟩
  refine hnot (List.isChain_iff_pairwise.mp (List.isChain_iff_getElem.mpr fun j hj => ?_))
  have hle := List.pairwise_iff_getElem.mp hin.sorted j (j + 1) (by omega) hj (by omega)
  by_contra hge
  exact hall ⟨j, events[j], events[j + 1], List.getElem?_eq_getElem (by omega),
    List.getElem?_eq_getElem hj, by omega⟩

/-- **The envelope handles every event of a buffer exactly if no two share a time stamp.** -/
theorem handlesEvents_iff (f : Floats) (env : AdsrEnv) (ports : Ports)
    (hF : bufsize < 2 ^ 31) (ht : timeStamp < 2 ^ 64) (hreads : m.Reads n 0 events)
    (hin : InBuffer timeStamp bufsize events) :
    HandlesEvents (kscarletADSR f bufsize timeStamp n env m ports) timeStamp events ↔
      events.Pairwise fun e e' => e.timeStamp < e'.timeStamp := by
  have hbegin : Following m n timeStamp events 0 (Adsr.begin env m n ports) :=
    begin_following hreads
  have hcases := kscarletADSR_cases f bufsize timeStamp env ports hreads
  constructor
  · intro h
    by_contra hnot
    obtain ⟨j, e, e', he, he', hshared⟩ := hin.shared hnot
    have hj := (List.getElem?_eq_some_iff.mp he').1
    obtain ⟨c, hc, hfollow⟩ := run_shared (f := f) hin ht hF hreads hbegin he he' hshared
    rcases hcases with ⟨hnil, -, -⟩ | ⟨hexamined, -⟩
    · rw [hnil] at hj
      exact Nat.not_lt_zero _ hj
    · have honce := h.once
      rw [hexamined, hfollow.once] at honce
      have hlen := congrArg List.length honce
      rw [List.length_take] at hlen
      omega
  · intro hdistinct
    obtain ⟨c, hc, hfollow⟩ := run_distinct (f := f) hin ht hF hreads hbegin hdistinct
    rcases hcases with ⟨hnil, hexamined, hnext⟩ | ⟨hexamined, hnext⟩
    · refine ⟨by rw [hexamined, hnil]; rfl, fun x hx => ?_, fun x hx => ?_, hnext⟩
      · rw [hexamined] at hx
        cases hx
      · rw [hexamined] at hx
        cases hx
    · refine ⟨?_, by rw [hexamined]; exact hfollow.frame, by rw [hexamined]; exact hfollow.gate, ?_⟩
      · rw [hexamined, hfollow.once, List.take_of_length_le hc]
      · rw [hnext, hfollow.next]
        exact List.getElem?_eq_none hc

/-- Arithmetic in which nothing sounds. -/
def silent : Floats where
  frames := fun _ => 1
  attackBias := fun _ => 0
  releaseBias := fun _ => 0
  decayBias := fun _ => 0
  attackMod := fun _ _ _ _ => 0
  decayMod := fun _ _ _ => 0
  releaseMod := fun _ _ _ _ => 0
  advance := fun pos _ => pos
  sine := fun _ => 0
  sawtooth := fun _ => 0
  triangle := fun _ => 0
  square := fun _ _ => 0

/-- A source that ends one note and starts another one at the same frame. -/
def twoAtOnce : EventMemory where
  node := fun p => match p with
    | 0 => { next := some 1, e := { timeStamp := 0, data := 1 } }
    | _ => { next := none, e := { timeStamp := 0, data := 0 } }
  nextNode := 2
  queue := fun _ _ => { head := some 1, tail := some 0 }
  ees := fun _ _ => [{ src := 10, srcPort := 1, currentNode := none }]

/-- A note that is held. -/
def sustained : AdsrEnv where
  currentTime := 5
  currentStage := stageSustain
  currentStageStartMod := 0
  currentMod := 0
  currentBias := 0
  stageDuration := 1

theorem twoAtOnce_sources : twoAtOnce.Sources 12 0 [[⟨0, 1⟩, ⟨0, 0⟩]] :=
  .cons ⟨[0, 1], ⟨⟨rfl, rfl, trivial⟩, rfl, rfl⟩⟩ .nil

theorem handlesEvents_iff_sustained : ∃ events, twoAtOnce.Reads 12 0 events ∧
    (HandlesEvents (kscarletADSR silent 4 0 12 sustained twoAtOnce ⟨[], []⟩) 0 events ↔
      events.Pairwise fun e e' => e.timeStamp < e'.timeStamp) := by
  obtain ⟨events, hreads, hsorted, hmem⟩ := twoAtOnce_sources.reads (by decide)
  have hzero : ∀ e ∈ events, e.timeStamp = 0 := by
    intro e he
    obtain ⟨q, hq, he⟩ := (hmem e).mp he
    obtain rfl := List.mem_singleton.mp hq
    simp only [List.mem_cons, List.not_mem_nil, or_false] at he
    rcases he with rfl | rfl
    · rfl
    · rfl
  have hin : InBuffer 0 4 events := by
    refine ⟨hsorted, fun e _ => Nat.zero_le _, fun e he => ?_, fun e he => ?_⟩
    · rw [hzero e he]
      decide
    · rw [hzero e he]
      decide
  exact ⟨events, hreads,
    handlesEvents_iff silent sustained ⟨[], []⟩ (by decide) (by decide) hreads hin⟩

/-- The release is examined; the attack at the same frame is fetched too late, and the new
note stays silent. -/
theorem not_handlesEvents : twoAtOnce.Sources 12 0 [[⟨0, 1⟩, ⟨0, 0⟩]] ∧
    ¬ HandlesEvents (kscarletADSR silent 4 0 12 sustained twoAtOnce ⟨[], []⟩) 0
      [⟨0, 1⟩, ⟨0, 0⟩] := by
  refine ⟨.cons ⟨[0, 1], ⟨⟨rfl, rfl, trivial⟩, rfl, rfl⟩⟩ .nil, fun h => ?_⟩
  have hlen := congrArg List.length h.once
  revert hlen
  decide

end Ksi.Audio.Scarlet
