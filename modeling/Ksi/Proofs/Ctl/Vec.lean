/-
When the growable vector has room for its elements.

A resize beyond the storage doubles it once.  So from a vector whose elements all lie in
its storage, a resize leaves one exactly if it asks for no more than twice the storage;
`Assigned` says which values a caller may then expect, and `Sound` that they are there.
-/
import Ksi.Ctl.Vec
import Ksi.Lib.Runs

namespace Ksi.Ctl

open Runs

variable {α : Type} {unspecified : Nat → Nat → α} {vec : DynamicVector α} {index k : Nat} {val : α}

/-! ### Storage -/

@[simp]
theorem length_makeVector : (makeVector unspecified k).length = k := by simp [makeVector]

theorem vectorRef_eq {v : List α} {obj : α} (h : v[k]? = some obj) : vectorRef v k = .ok obj := by
  unfold vectorRef
  rw [h]

theorem vectorSet_eq {v : List α} (h : k < v.length) : vectorSet v k val = .ok (v.set k val) :=
  if_pos h

/-- The loop copies the elements from `idx` on and raises no exception. -/
theorem copyFrom_eq (oldCap : Nat) (src des : List α) (idx : Nat) (hsrc : oldCap ≤ src.length)
    (hdes : oldCap ≤ des.length) :
    ∃ v, copyFrom oldCap src des idx = .ok v ∧ v.length = des.length ∧
      (∀ i < idx, v[i]? = des[i]?) ∧ ∀ i, idx ≤ i → i < oldCap → v[i]? = src[i]? := by
  fun_induction copyFrom oldCap src des idx with
  | case1 des idx hlt ih =>
      obtain ⟨obj, hobj⟩ : ∃ obj, src[idx]? = some obj :=
        ⟨_, List.getElem?_eq_getElem (show idx < src.length by omega)⟩
      have hset : vectorSet des idx obj = .ok (des.set idx obj) := vectorSet_eq (by omega)
      obtain ⟨v, hv, hlength, hbefore, hafter⟩ :=
        ih (des.set idx obj) (by rw [List.length_set]; exact hdes)
      refine ⟨v, ?_, hlength.trans List.length_set, fun i hi => ?_, fun i hi hlt => ?_⟩
      · rw [vectorRef_eq hobj]
        show (vectorSet des idx obj).bind _ = _
        rw [hset]
        exact hv
      · rw [hbefore i (by omega), List.getElem?_set_ne (by omega)]
      · rcases Nat.eq_or_lt_of_le hi with rfl | hnext
        · rw [hbefore idx (by omega), List.getElem?_set_self (by omega), hobj]
        · exact hafter i hnext hlt
  | case2 des idx hge =>
      refine ⟨des, rfl, rfl, fun _ _ => rfl, fun i hi hlt => ?_⟩
      omega

/-- **A resize** sets the length, and doubles the storage once if it is too small. -/
theorem dynamicVectorResize_eq (unspecified : Nat → Nat → α) (vec : DynamicVector α)
    (newSize : Nat) :
    ∃ content, dynamicVectorResize unspecified vec newSize =
        (.ok (), { length := newSize, contentVector := content }) ∧
      content.length = (if newSize > vec.contentVector.length then 2 * vec.contentVector.length
        else vec.contentVector.length) ∧
      ∀ i < vec.contentVector.length, content[i]? = vec.contentVector[i]? := by
  unfold dynamicVectorResize
  dsimp only
  split
  · obtain ⟨v, hv, hlength, -, hcopied⟩ := copyFrom_eq vec.contentVector.length vec.contentVector
      (makeVector unspecified (2 * vec.contentVector.length)) 0 (Nat.le_refl _)
      (by rw [length_makeVector]; omega)
    rw [hv]
    exact ⟨v, rfl, hlength.trans length_makeVector, fun i hi => hcopied i (Nat.zero_le i) hi⟩
  · exact ⟨vec.contentVector, rfl, rfl, fun _ _ => rfl⟩

/-- An element in the storage is read. -/
theorem dynamicVectorRef_eq (hindex : index < vec.length)
    (hget : vec.contentVector[index]? = some val) (default : α) :
    dynamicVectorRef vec index default = .ok val := by
  unfold dynamicVectorRef
  rw [if_pos hindex, vectorRef_eq hget]

/-- An index in range sets the element, where the storage has it. -/
theorem dynamicVectorSet_eq (hindex : index < vec.length)
    (hroom : vec.length ≤ vec.contentVector.length) (val : α) :
    dynamicVectorSet vec index val =
      (.ok (), { vec with contentVector := vec.contentVector.set index val }) := by
  have hset : vectorSet vec.contentVector index val = .ok (vec.contentVector.set index val) :=
    vectorSet_eq (by omega)
  unfold dynamicVectorSet
  rw [if_pos hindex, hset]

/-! ### Runs -/

/-- What has been set in a vector of some length, at each index since it came into range. -/
structure Assigned (α : Type) where
  length : Nat
  value : Nat → Option α

/-- A vector, and what has been set in it. -/
structure History (α : Type) where
  vec : DynamicVector α
  assigned : Assigned α

/-- A call on the vector. -/
inductive Call (α : Type)
  | resize (newSize : Nat)
  | set (index : Nat) (val : α)

/-- An index that leaves the range, or comes into it, has nothing set. -/
def Assigned.resize (a : Assigned α) (newSize : Nat) : Assigned α where
  length := newSize
  value := fun i => if i < min a.length newSize then a.value i else none

/-- Nothing is set out of range. -/
def Assigned.set (a : Assigned α) (index : Nat) (val : α) : Assigned α :=
  if index < a.length then { a with value := Function.update a.value index (some val) } else a

namespace History

/-- A new vector. -/
def new (unspecified : Nat → Nat → α) : History α where
  vec := makeDynamicVector unspecified
  assigned := { length := 0, value := fun _ => none }

/-- A call; an exception ends it. -/
def next (unspecified : Nat → Nat → α) (s : History α) : Call α → History α
  | .resize newSize =>
      { vec := (dynamicVectorResize unspecified s.vec newSize).2
        assigned := s.assigned.resize newSize }
  | .set index val =>
      { vec := (dynamicVectorSet s.vec index val).2
        assigned := s.assigned.set index val }

/-- The elements have room, and each in range has the value that was set last. -/
structure Sound (s : History α) : Prop where
  room : s.vec.length ≤ s.vec.contentVector.length
  length : s.vec.length = s.assigned.length
  ref : ∀ index < s.vec.length, ∀ default, ∃ val, dynamicVectorRef s.vec index default = .ok val ∧
    ∀ last, s.assigned.value index = some last → val = last

/-- A resize keeps the elements that stay in range. -/
def Keeps (unspecified : Nat → Nat → α) (s : History α) : Call α → Prop
  | .resize newSize => ∀ index < min s.vec.length newSize, ∀ default,
      dynamicVectorRef (dynamicVectorResize unspecified s.vec newSize).2 index default =
        dynamicVectorRef s.vec index default
  | .set _ _ => True

/-- A resize asks for no more than twice the storage. -/
def Doubles (s : History α) : Call α → Prop
  | .resize newSize => newSize ≤ 2 * s.vec.contentVector.length
  | .set _ _ => True

variable {s : History α}

theorem sound_new (unspecified : Nat → Nat → α) : (new unspecified).Sound where
  room := Nat.zero_le _
  length := rfl
  ref := fun index hindex => absurd hindex (Nat.not_lt_zero index)

/-- An index in range is in the storage. -/
theorem Sound.get (h : s.Sound) (hindex : index < s.vec.length) :
    ∃ val, s.vec.contentVector[index]? = some val ∧
      ∀ last, s.assigned.value index = some last → val = last := by
  obtain ⟨obj, hobj⟩ : ∃ obj, s.vec.contentVector[index]? = some obj :=
    ⟨_, List.getElem?_eq_getElem (Nat.lt_of_lt_of_le hindex h.room)⟩
  obtain ⟨val, hval, hlast⟩ := h.ref index hindex obj
  rw [dynamicVectorRef_eq hindex hobj] at hval
  cases hval
  exact ⟨obj, hobj, hlast⟩

theorem Sound.set (h : s.Sound) (index : Nat) (val : α) :
    (s.next unspecified (.set index val)).Sound := by
  have hlength := h.length
  by_cases hindex : index < s.vec.length
  · have hvec : (s.next unspecified (.set index val)).vec =
        { s.vec with contentVector := s.vec.contentVector.set index val } := by
      show (dynamicVectorSet s.vec index val).2 = _
      rw [dynamicVectorSet_eq hindex h.room]
    have hassigned : (s.next unspecified (.set index val)).assigned =
        { s.assigned with value := Function.update s.assigned.value index (some val) } :=
      if_pos (hlength ▸ hindex)
    refine ⟨?_, ?_, fun i hi default => ?_⟩
    · rw [hvec, List.length_set]
      exact h.room
    · rw [hvec, hassigned]
      exact hlength
    · rw [hvec] at hi ⊢
      rw [hassigned]
      obtain ⟨obj, hobj, hlast⟩ := h.get hi
      by_cases hsame : i = index
      · subst hsame
        refine ⟨val, dynamicVectorRef_eq hi
          (List.getElem?_set_self (Nat.lt_of_lt_of_le hindex h.room)) default, fun last hl => ?_⟩
        have hself : Function.update s.assigned.value i (some val) i = some last := hl
        rw [Function.update_self] at hself
        exact Option.some.inj hself
      · refine ⟨obj, dynamicVectorRef_eq hi ?_ default, fun last hl => hlast last ?_⟩
        · rw [List.getElem?_set_ne (Ne.symm hsame)]
          exact hobj
        · have hother : Function.update s.assigned.value index (some val) i = some last := hl
          rwa [Function.update_of_ne hsame] at hother
  · have hvec : (s.next unspecified (.set index val)).vec = s.vec := by
      show (dynamicVectorSet s.vec index val).2 = _
      unfold dynamicVectorSet
      rw [if_neg hindex]
    have hassigned : (s.next unspecified (.set index val)).assigned = s.assigned :=
      if_neg (hlength ▸ hindex)
    refine ⟨?_, ?_, ?_⟩
    · rw [hvec]
      exact h.room
    · rw [hvec, hassigned]
      exact hlength
    · rw [hvec, hassigned]
      exact h.ref

/-- **A resize** leaves room for the elements exactly if twice the storage is enough. -/
theorem Sound.resize_iff (h : s.Sound) (newSize : Nat) :
    (s.next unspecified (.resize newSize)).Sound ↔ newSize ≤ 2 * s.vec.contentVector.length := by
  obtain ⟨content, hresize, hlength, hkept⟩ := dynamicVectorResize_eq unspecified s.vec newSize
  have hvec : (s.next unspecified (.resize newSize)).vec =
      { length := newSize, contentVector := content } := by
    show (dynamicVectorResize unspecified s.vec newSize).2 = _
    rw [hresize]
  have hassigned : (s.next unspecified (.resize newSize)).assigned =
    s.assigned.resize newSize := rfl
  constructor
  · intro hnext
    have hroom := hnext.room
    rw [hvec] at hroom
    dsimp only at hroom
    split at hlength <;> omega
  · intro hdoubles
    have hroom : newSize ≤ content.length := by
      split at hlength <;> omega
    refine ⟨by rw [hvec]; exact hroom, by rw [hvec]; rfl, fun i hi default => ?_⟩
    rw [hvec] at hi ⊢
    rw [hassigned]
    obtain ⟨obj, hobj⟩ : ∃ obj, content[i]? = some obj :=
      ⟨_, List.getElem?_eq_getElem (Nat.lt_of_lt_of_le hi hroom)⟩
    refine ⟨obj, dynamicVectorRef_eq hi hobj default, fun last hlast => ?_⟩
    -- what has been set is in range before and after
    unfold Assigned.resize at hlast
    dsimp only at hlast
    split at hlast
    · rename_i hrange
      have hold : i < s.vec.length := by
        rw [h.length]
        omega
      obtain ⟨val, hval, hset⟩ := h.get hold
      rw [hkept i (Nat.lt_of_lt_of_le hold h.room), hval] at hobj
      cases hobj
      exact hset last hlast
    · cases hlast

/-- A resize of a vector that has room keeps what stays in range. -/
theorem Sound.keeps (h : s.Sound) (c : Call α) : s.Keeps unspecified c := by
  cases c with
  | set index val => trivial
  | resize newSize =>
      intro i hi default
      obtain ⟨content, hresize, -, hkept⟩ := dynamicVectorResize_eq unspecified s.vec newSize
      have hold : i < s.vec.length := by omega
      obtain ⟨val, hval, -⟩ := h.get hold
      rw [hresize, dynamicVectorRef_eq hold hval]
      exact dynamicVectorRef_eq (show i < newSize by omega)
        ((hkept i (Nat.lt_of_lt_of_le hold h.room)).trans hval) default

end History

/-! ### The vector over a run -/

/-- The elements have room after every call, and a resize keeps the ones that stay. -/
def NeverOutgrows (unspecified : Nat → Nat → α) (calls : List (Call α)) : Prop :=
  Along (History.next unspecified)
    (fun s c => (s.next unspecified c).Sound ∧ s.Keeps unspecified c) (.new unspecified) calls

/-- **The vector never outgrows its storage** exactly if no resize asks for more than twice
the storage at the time. -/
theorem neverOutgrows_iff (unspecified : Nat → Nat → α) (calls : List (Call α)) :
    NeverOutgrows unspecified calls ↔
      Along (History.next unspecified) History.Doubles (.new unspecified) calls := by
  have hstep : ∀ (s : History α) c, s.Sound → ((s.next unspecified c).Sound ↔ s.Doubles c) := by
    intro s c h
    cases c with
    | resize newSize => exact h.resize_iff newSize
    | set index val => exact iff_of_true (h.set index val) trivial
  refine along_congr History.Sound (fun s c h _ => ?_) (fun s c h _ hc => (hstep s c h).mpr hc)
    calls (History.sound_new unspecified) (along_free calls _)
  rw [hstep s c h]
  exact and_iff_left (h.keeps c)

/-- A resize to nine elements leaves eight. -/
theorem not_neverOutgrows : ¬ ∀ (unspecified : Nat → Nat → Bool) (calls : List (Call Bool)),
    NeverOutgrows unspecified calls := by
  intro h
  have hroom := (h (fun _ _ => false) [.resize 9]).1.1.room
  obtain ⟨content, hresize, hlength, -⟩ := dynamicVectorResize_eq (fun _ _ => false)
    (History.new fun _ _ => false).vec 9
  have hvec : (History.next (fun _ _ => false) (.new fun _ _ => false) (.resize 9)).vec =
      { length := 9, contentVector := content } := congrArg Prod.snd hresize
  rw [hvec] at hroom
  have height : content.length = 8 := hlength
  dsimp only at hroom
  omega

end Ksi.Ctl
