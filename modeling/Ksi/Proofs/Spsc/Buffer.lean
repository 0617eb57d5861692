/-
How long the bounded buffer is a queue of its capacity.

The counters only grow and an item is stored at the place its number gives, so a place is
never used again: the buffer holds as many items over its whole life as fit in the memory.
`Stores` relates it to a queue as long as that many have been pushed; the next push that the
queue accepts copies outside of the memory.  Outside of the `dataSize * bufferSize` bytes it
copies before that, into the bytes that pad the struct.
-/
import Ksi.Spsc.Buffer

namespace Ksi.Spsc

variable {dataSize : Nat}

/-! ### The queue -/

/-- A queue of so many items: a call of Push fails if it has as many, one of Pop if it has
none. -/
def fifoCall (bufferSize : Nat) (q : List (Item dataSize)) :
    Call dataSize → Result dataSize × List (Item dataSize)
  | .push data => if q.length = bufferSize then ((-1, none), q) else ((0, none), q ++ [data])
  | .pop =>
      match q with
      | [] => ((-1, none), [])
      | data :: rest => ((0, some data), rest)

/-- The results of a sequence of calls on a queue. -/
def fifoResults (bufferSize : Nat) (q : List (Item dataSize)) :
    List (Call dataSize) → List (Result dataSize)
  | [] => []
  | c :: rest =>
      (fifoCall bufferSize q c).1 :: fifoResults bufferSize (fifoCall bufferSize q c).2 rest

/-- How many items a queue accepts in a sequence of calls. -/
def accepted (bufferSize : Nat) (q : List (Item dataSize)) : List (Call dataSize) → Nat
  | [] => 0
  | c :: rest =>
      (match c with
        | .push _ => if q.length = bufferSize then 0 else 1
        | .pop => 0) + accepted bufferSize (fifoCall bufferSize q c).2 rest

/-! ### The memory -/

/-- How many items fit in the memory. -/
def KsiSPSCBuffer.room (buf : KsiSPSCBuffer) (dataSize : Nat) : Nat := buf.allocated / dataSize

/-- What `malloc` promises of the sizes. -/
structure Sized (allocated dataSize bufferSize : Nat) : Prop where
  item : 1 ≤ dataSize
  small : allocated < 2 ^ 63
  /-- the counters of what fits, and the sum with the size of the buffer, do not wrap -/
  fits : ∀ n, n * dataSize ≤ allocated → n + bufferSize < 2 ^ 64

/-- A size that wraps around leaves too little memory for the counters to wrap. -/
theorem sized_of_alloc {malloc : Nat → Bool} {garbage : Nat → UInt8}
    {offset headerSize bufferSize : Nat} {buf : KsiSPSCBuffer}
    (hmalloc : ∀ size, malloc size = true → size < 2 ^ 63) (hitem : 1 ≤ dataSize)
    (hbuffer : bufferSize < 2 ^ 64)
    (halloc : ksiSPSCBufferAlloc malloc garbage offset headerSize dataSize bufferSize = some buf) :
    Sized buf.allocated dataSize bufferSize := by
  unfold ksiSPSCBufferAlloc at halloc
  dsimp only at halloc
  split at halloc
  · rename_i hsize
    cases halloc
    have hsmall := hmalloc _ hsize.1
    have hheader := hsize.2
    refine ⟨hitem, show _ - _ < _ by omega, fun n hn => ?_⟩
    by_contra hwraps
    -- the bytes that are missing to a multiple of the size of the address space
    obtain ⟨k, hk⟩ : ∃ k, bufferSize + k = 2 ^ 64 := ⟨2 ^ 64 - bufferSize, by omega⟩
    have hkn : k * dataSize ≤ n * dataSize := Nat.mul_le_mul_right _ (by omega)
    have hkpos : 1 * 1 ≤ k * dataSize := Nat.mul_le_mul (by omega) hitem
    have hproduct : dataSize * bufferSize + k * dataSize = dataSize * 2 ^ 64 := by
      rw [← hk, Nat.mul_add, Nat.mul_comm k]
    dsimp only at hn
    unfold allocSize at hn hheader hsmall
    generalize dataSize * bufferSize = product at *
    generalize k * dataSize = missing at *
    generalize n * dataSize = used at *
    omega
  · cases halloc

/-! ### One call -/

/-- The buffer after `n` items have been pushed, the last of which are in the queue. -/
structure Stores (buf : KsiSPSCBuffer) (bufferSize : Nat) (q : List (Item dataSize))
    (n : Nat) : Prop where
  sized : Sized buf.allocated dataSize bufferSize
  head : buf.head = n
  tail : buf.tail + q.length = n
  bound : q.length ≤ bufferSize
  inside : n * dataSize ≤ buf.allocated
  copied : ∀ o, o ∈ buf.copies ↔ ∃ k < n, o = k * dataSize
  items : ∀ k data, q[k]? = some data → ∀ i : Fin dataSize,
    buf.buffer ((buf.tail + k) * dataSize + i) = data i

namespace Stores

variable {buf : KsiSPSCBuffer} {bufferSize n : Nat} {q : List (Item dataSize)}
  {data : Item dataSize}

/-- Push sees the buffer full if the queue is. -/
theorem full_iff (h : Stores buf bufferSize q n) :
    buf.head ≥ (buf.tail + bufferSize) % 2 ^ 64 ↔ q.length = bufferSize := by
  have hfits := h.sized.fits n h.inside
  have hhead := h.head
  have htail := h.tail
  have hbound := h.bound
  rw [Nat.mod_eq_of_lt (by omega)]
  omega

/-- The place of an item that fits is not wrapped around. -/
theorem place (h : Stores buf bufferSize q n) {k : Nat} (hk : k ≤ n) :
    k * dataSize % 2 ^ 64 = k * dataSize := by
  have hplace : k * dataSize ≤ n * dataSize := Nat.mul_le_mul_right _ hk
  have hinside := h.inside
  have hsmall := h.sized.small
  exact Nat.mod_eq_of_lt (by omega)

/-- The copies are inside of the bytes of the items exactly if no more items have been pushed
than the buffer is to have. -/
theorem copies_inside_iff (h : Stores buf bufferSize q n) :
    (∀ o ∈ buf.copies, o + dataSize ≤ dataSize * bufferSize) ↔ n ≤ bufferSize := by
  have hends : ∀ k, k * dataSize + dataSize ≤ dataSize * bufferSize ↔ k + 1 ≤ bufferSize := by
    intro k
    rw [Nat.mul_comm dataSize, ← Nat.succ_mul]
    exact Nat.mul_le_mul_right_iff h.sized.item
  constructor
  · intro hinside
    cases n with
    | zero => exact Nat.zero_le bufferSize
    | succ n =>
        have hlast := (h.copied (n * dataSize)).mpr ⟨n, Nat.lt_succ_self n, rfl⟩
        exact (hends n).mp (hinside _ hlast)
  · intro hle o ho
    obtain ⟨k, hk, rfl⟩ := (h.copied o).mp ho
    exact (hends k).mpr (Nat.le_trans hk hle)

theorem push_full (h : Stores buf bufferSize q n) (hfull : q.length = bufferSize) :
    ksiSPSCBufferPush buf data bufferSize = some (-1, buf) :=
  if_pos (h.full_iff.mpr hfull)

/-- The push of an item for which no memory is left. -/
theorem push_outside (h : Stores buf bufferSize q n) (hfull : q.length ≠ bufferSize)
    (hout : ¬ (n + 1) * dataSize ≤ buf.allocated) :
    ksiSPSCBufferPush buf data bufferSize = none := by
  unfold ksiSPSCBufferPush copyIn
  rw [if_neg (mt h.full_iff.mp hfull), h.head, h.place (Nat.le_refl n), if_neg]
  · rfl
  · rwa [Nat.add_mul, Nat.one_mul] at hout

theorem push (h : Stores buf bufferSize q n) (hfull : q.length ≠ bufferSize)
    (hin : (n + 1) * dataSize ≤ buf.allocated) (data : Item dataSize) :
    ∃ buf', ksiSPSCBufferPush buf data bufferSize = some (0, buf') ∧
      buf'.allocated = buf.allocated ∧ Stores buf' bufferSize (q ++ [data]) (n + 1) := by
  have hroom : n * dataSize + dataSize ≤ buf.allocated := by rwa [Nat.add_mul, Nat.one_mul] at hin
  have hnext := h.sized.fits (n + 1) hin
  have hbound := h.bound
  have htail := h.tail
  unfold ksiSPSCBufferPush copyIn
  rw [if_neg (mt h.full_iff.mp hfull), h.head, h.place (Nat.le_refl n), if_pos hroom]
  refine ⟨_, rfl, rfl, h.sized, ?_, ?_, ?_, hin, fun o => ?_, fun k x hx i => ?_⟩
  · exact Nat.mod_eq_of_lt (by omega)
  · rw [List.length_append, List.length_singleton]
    show buf.tail + _ = _
    omega
  · rw [List.length_append, List.length_singleton]
    omega
  · show o ∈ buf.copies ++ [n * dataSize] ↔ _
    rw [List.mem_append, List.mem_singleton, h.copied o]
    constructor
    · rintro (⟨k, hk, rfl⟩ | rfl)
      · exact ⟨k, Nat.lt_succ_of_lt hk, rfl⟩
      · exact ⟨n, Nat.lt_succ_self n, rfl⟩
    · rintro ⟨k, hk, rfl⟩
      rcases Nat.lt_succ_iff_lt_or_eq.mp hk with hlt | rfl
      · exact .inl ⟨k, hlt, rfl⟩
      · exact .inr rfl
  · show (if hplace : _ then _ else _) = _
    rcases Nat.lt_or_ge k q.length with hk | hk
    · -- an item that has been stored before
      rw [List.getElem?_append_left hk] at hx
      have hbefore : (buf.tail + k + 1) * dataSize ≤ n * dataSize :=
        Nat.mul_le_mul_right _ (by omega)
      rw [Nat.add_mul, Nat.one_mul] at hbefore
      rw [dif_neg (by show ¬ (_ ≤ (buf.tail + k) * dataSize + i ∧ _); omega)]
      exact h.items k x hx i
    · rw [List.getElem?_append_right hk] at hx
      have hzero : k - q.length = 0 := by
        by_contra hne
        rw [List.getElem?_eq_none (by rw [List.length_singleton]; omega)] at hx
        cases hx
      rw [hzero] at hx
      cases hx
      have hlast : buf.tail + k = n := by omega
      rw [dif_pos (by
        show n * dataSize ≤ (buf.tail + k) * dataSize + i ∧ _
        rw [hlast]
        omega)]
      congr 1
      apply Fin.ext
      show (buf.tail + k) * dataSize + i - n * dataSize = i
      rw [hlast]
      omega

theorem pop_nil (h : Stores buf bufferSize ([] : List (Item dataSize)) n) :
    ksiSPSCBufferPop buf dataSize = some (-1, none, buf) := by
  have hhead := h.head
  have htail := h.tail
  rw [List.length_nil] at htail
  exact if_pos (by omega)

theorem pop_cons (h : Stores buf bufferSize (data :: q) n) :
    ∃ buf', ksiSPSCBufferPop buf dataSize = some (0, some data, buf') ∧
      buf'.allocated = buf.allocated ∧ Stores buf' bufferSize q n := by
  have hhead := h.head
  have htail := h.tail
  have hbound := h.bound
  have hfits := h.sized.fits n h.inside
  have hinside := h.inside
  rw [List.length_cons] at htail hbound
  have hplace : (buf.tail + 1) * dataSize ≤ n * dataSize := Nat.mul_le_mul_right _ (by omega)
  rw [Nat.add_mul, Nat.one_mul] at hplace
  have hdata : (fun i : Fin dataSize => buf.buffer (buf.tail * dataSize + i)) = data :=
    funext fun i => h.items 0 data rfl i
  have hnext : (buf.tail + 1) % 2 ^ 64 = buf.tail + 1 := Nat.mod_eq_of_lt (by omega)
  unfold ksiSPSCBufferPop copyOut
  rw [if_neg (by omega), h.place (by omega), if_pos (by omega), hdata, hnext]
  refine ⟨_, rfl, rfl, h.sized, hhead, ?_, by omega, hinside, fun o => ?_, fun k x hx i => ?_⟩
  · show buf.tail + 1 + q.length = n
    omega
  · show o ∈ buf.copies ++ [buf.tail * dataSize] ↔ _
    rw [List.mem_append, List.mem_singleton, or_iff_left_of_imp]
    · exact h.copied o
    · rintro rfl
      exact (h.copied _).mpr ⟨buf.tail, by omega, rfl⟩
  · have hitem := h.items (k + 1) x hx i
    show buf.buffer ((buf.tail + 1 + k) * dataSize + i) = x i
    rwa [show buf.tail + 1 + k = buf.tail + (k + 1) by omega]

end Stores

/-! ### Sequences of calls -/

variable {buf buf' : KsiSPSCBuffer} {bufferSize n : Nat} {q : List (Item dataSize)}

theorem le_room (h : 1 ≤ dataSize) : n ≤ buf.room dataSize ↔ n * dataSize ≤ buf.allocated :=
  Nat.le_div_iff_mul_le h

/-- A call, and what is left of the sequence. -/
theorem run_cons {c : Call dataSize} {r : Result dataSize}
    (hcall : buf.call bufferSize c = some (r, buf')) (rest : List (Call dataSize)) :
    buf.run bufferSize (c :: rest) = (buf'.run bufferSize rest).map fun p => (r :: p.1, p.2) := by
  rw [KsiSPSCBuffer.run, hcall]
  show (buf'.run bufferSize rest).bind (fun p => some (r :: p.1, p.2)) = _
  cases buf'.run bufferSize rest with
  | none => rfl
  | some p => rfl

/-- From a buffer with `n` items pushed, a sequence of calls goes as on the queue if what the
queue accepts still fits in the memory, and copies outside of it if not. -/
def Goes (buf : KsiSPSCBuffer) (bufferSize : Nat) (q : List (Item dataSize)) (n : Nat)
    (calls : List (Call dataSize)) : Prop :=
  if n + accepted bufferSize q calls ≤ buf.room dataSize then
    ∃ (buf' : KsiSPSCBuffer) (q' : List (Item dataSize)),
      buf.run bufferSize calls = some (fifoResults bufferSize q calls, buf') ∧
        Stores buf' bufferSize q' (n + accepted bufferSize q calls)
  else buf.run bufferSize calls = none

/-- A call that goes as on the queue, and the rest of the sequence. -/
theorem Goes.cons {c : Call dataSize} {rest : List (Call dataSize)} {r : Result dataSize}
    {q' : List (Item dataSize)} {m : Nat} (hcall : buf.call bufferSize c = some (r, buf'))
    (hfifo : fifoCall bufferSize q c = (r, q')) (hallocated : buf'.allocated = buf.allocated)
    (hm : n + accepted bufferSize q (c :: rest) = m + accepted bufferSize q' rest)
    (h : Goes buf' bufferSize q' m rest) : Goes buf bufferSize q n (c :: rest) := by
  have hroom : buf'.room dataSize = buf.room dataSize := by
    unfold KsiSPSCBuffer.room
    rw [hallocated]
  unfold Goes at h ⊢
  rw [hroom] at h
  rw [hm, run_cons hcall, fifoResults, hfifo]
  split at h
  · rename_i hfits
    obtain ⟨buf'', q'', hrun, hstores⟩ := h
    rw [if_pos hfits, hrun]
    exact ⟨buf'', q'', rfl, hstores⟩
  · rename_i hfits
    rw [if_neg hfits, h]
    rfl

/-- **A sequence of calls** on a buffer that stores a queue. -/
theorem Stores.goes (calls : List (Call dataSize)) (h : Stores buf bufferSize q n) :
    Goes buf bufferSize q n calls := by
  induction calls generalizing buf q n with
  | nil =>
      have hroom := (le_room h.sized.item).mpr h.inside
      unfold Goes
      exact (if_pos hroom).mpr ⟨buf, q, rfl, h⟩
  | cons c rest ih =>
      cases c with
      | push data =>
          by_cases hfull : q.length = bufferSize
          · have hfifo : fifoCall bufferSize q (.push data) = ((-1, none), q) := if_pos hfull
            have hcall : buf.call bufferSize (.push data) = some ((-1, none), buf) := by
              rw [KsiSPSCBuffer.call, h.push_full hfull]
              rfl
            refine .cons hcall hfifo rfl ?_ (ih h)
            rw [accepted, hfifo]
            simp only [if_pos hfull]
            omega
          · have hfifo : fifoCall bufferSize q (.push data) = ((0, none), q ++ [data]) :=
              if_neg hfull
            have haccepted : n + accepted bufferSize q (.push data :: rest) =
                n + 1 + accepted bufferSize (q ++ [data]) rest := by
              rw [accepted, hfifo]
              simp only [if_neg hfull]
              omega
            by_cases hin : (n + 1) * dataSize ≤ buf.allocated
            · obtain ⟨buf', hpush, hallocated, hstores⟩ := h.push hfull hin data
              have hcall : buf.call bufferSize (.push data) = some ((0, none), buf') := by
                rw [KsiSPSCBuffer.call, hpush]
                rfl
              exact .cons hcall hfifo hallocated haccepted (ih hstores)
            · have hroom := mt (le_room h.sized.item).mp hin
              have hcall : buf.call bufferSize (.push data) = none := by
                rw [KsiSPSCBuffer.call, h.push_outside hfull hin]
                rfl
              unfold Goes
              rw [haccepted, if_neg (by omega), KsiSPSCBuffer.run, hcall]
              rfl
      | pop =>
          cases q with
          | nil =>
              have hcall : buf.call bufferSize (.pop : Call dataSize) = some ((-1, none), buf) := by
                rw [KsiSPSCBuffer.call, h.pop_nil]
                rfl
              refine .cons hcall rfl rfl ?_ (ih h)
              rw [accepted, Nat.zero_add]
              rfl
          | cons data q =>
              obtain ⟨buf', hpop, hallocated, hstores⟩ := h.pop_cons
              have hcall : buf.call bufferSize (.pop : Call dataSize) =
                  some ((0, some data), buf') := by
                rw [KsiSPSCBuffer.call, hpop]
                rfl
              refine .cons hcall rfl hallocated ?_ (ih hstores)
              rw [accepted, Nat.zero_add]
              rfl

theorem Stores.run_fits (h : Stores buf bufferSize q n) {calls : List (Call dataSize)}
    (hfits : n + accepted bufferSize q calls ≤ buf.room dataSize) :
    ∃ (buf' : KsiSPSCBuffer) (q' : List (Item dataSize)),
      buf.run bufferSize calls = some (fifoResults bufferSize q calls, buf') ∧
        Stores buf' bufferSize q' (n + accepted bufferSize q calls) := by
  have hgoes := h.goes calls
  unfold Goes at hgoes
  rwa [if_pos hfits] at hgoes

theorem Stores.run_outside (h : Stores buf bufferSize q n) {calls : List (Call dataSize)}
    (hmany : ¬ n + accepted bufferSize q calls ≤ buf.room dataSize) :
    buf.run bufferSize calls = none := by
  have hgoes := h.goes calls
  unfold Goes at hgoes
  rwa [if_neg hmany] at hgoes

/-! ### From the allocation on -/

/-- The calls have the results that they have on a queue, and every copy is inside of the bytes
of the items. -/
def AsQueue (buf : KsiSPSCBuffer) (bufferSize : Nat) (calls : List (Call dataSize)) : Prop :=
  ∃ buf', buf.run bufferSize calls = some (fifoResults bufferSize [] calls, buf') ∧
    ∀ o ∈ buf'.copies, o + dataSize ≤ dataSize * bufferSize

section

variable {malloc : Nat → Bool} {garbage : Nat → UInt8} {offset headerSize : Nat}

/-- Unless the size wraps around, at least as many items fit as the buffer is to have. -/
theorem le_room_of_alloc (hitem : 1 ≤ dataSize) (hoffset : offset ≤ headerSize)
    (hsize : headerSize + dataSize * bufferSize < 2 ^ 64)
    (halloc : ksiSPSCBufferAlloc malloc garbage offset headerSize dataSize bufferSize = some buf) :
    bufferSize ≤ buf.room dataSize := by
  unfold ksiSPSCBufferAlloc allocSize at halloc
  rw [Nat.mod_eq_of_lt hsize] at halloc
  dsimp only at halloc
  split at halloc
  · cases halloc
    refine (le_room hitem).mpr ?_
    show bufferSize * dataSize ≤ headerSize + dataSize * bufferSize - offset
    rw [Nat.mul_comm bufferSize]
    omega
  · cases halloc

/-- A new buffer stores the empty queue. -/
theorem stores_alloc (hsized : Sized buf.allocated dataSize bufferSize)
    (halloc : ksiSPSCBufferAlloc malloc garbage offset headerSize dataSize bufferSize = some buf) :
    Stores buf bufferSize ([] : List (Item dataSize)) 0 := by
  unfold ksiSPSCBufferAlloc at halloc
  dsimp only at halloc
  split at halloc
  · cases halloc
    refine ⟨hsized, rfl, rfl, Nat.zero_le _, by rw [Nat.zero_mul]; exact Nat.zero_le _, ?_, nofun⟩
    exact fun o => ⟨nofun, fun ⟨k, hk, _⟩ => absurd hk (Nat.not_lt_zero k)⟩
  · cases halloc

/-- **The buffer is a queue of its capacity** exactly if the items pushed over its whole life
are no more than it is to have and fit in its memory. -/
theorem results_iff (hmalloc : ∀ size, malloc size = true → size < 2 ^ 63) (hitem : 1 ≤ dataSize)
    (hbuffer : bufferSize < 2 ^ 64)
    (halloc : ksiSPSCBufferAlloc malloc garbage offset headerSize dataSize bufferSize = some buf)
    (calls : List (Call dataSize)) :
    AsQueue buf bufferSize calls ↔
      accepted bufferSize [] calls ≤ bufferSize ∧
        accepted bufferSize [] calls ≤ buf.room dataSize := by
  have hstores := stores_alloc (sized_of_alloc hmalloc hitem hbuffer halloc) halloc
  rw [← Nat.zero_add (accepted bufferSize [] calls)]
  by_cases hfits : 0 + accepted bufferSize [] calls ≤ buf.room dataSize
  · obtain ⟨buf', q', hrun, hstores'⟩ := hstores.run_fits hfits
    rw [and_iff_left hfits, ← hstores'.copies_inside_iff]
    constructor
    · rintro ⟨buf'', hrun', hinside⟩
      cases hrun.symm.trans hrun'
      exact hinside
    · exact fun hinside => ⟨buf', hrun, hinside⟩
  · refine iff_of_false ?_ fun h => hfits h.2
    rintro ⟨buf', hrun, -⟩
    cases (hstores.run_outside hfits).symm.trans hrun

end

/-- An allocator with little memory. -/
def someMalloc (size : Nat) : Bool := size < 2 ^ 20

/-- A new buffer of one byte for each item, with the layout of a cache line of 64 bytes: the
struct has 256 bytes, and `buffer` begins at the 136th. -/
def newBuffer (bufferSize : Nat) : KsiSPSCBuffer where
  head := 0
  tail := 0
  allocated := 256 + 1 * bufferSize - 136
  buffer := fun _ => 0
  copies := []

/-- An item is pushed and popped, so many times over. -/
def pushPops (n : Nat) : List (Call 1) := (List.replicate n [.push fun _ => 5, .pop]).flatten

theorem someMalloc_lt (size : Nat) (h : someMalloc size = true) : size < 2 ^ 63 := by
  have hlt := of_decide_eq_true h
  omega

/-- In a buffer of two items two pushes succeed, with a pop between them. -/
theorem results_iff_two : AsQueue (newBuffer 2) 2 (pushPops 2) :=
  (results_iff someMalloc_lt (by decide) (by decide)
    (show ksiSPSCBufferAlloc someMalloc (fun _ => 0) 136 256 1 2 = some (newBuffer 2) from rfl)
    (pushPops 2)).mpr (by decide)

/-- In a buffer of one item the 122nd push copies behind the memory, although the buffer is
empty each time. -/
theorem not_results : ¬ ∀ (malloc : Nat → Bool) (garbage : Nat → UInt8)
    (offset headerSize dataSize bufferSize : Nat) (buf : KsiSPSCBuffer),
    (∀ size, malloc size = true → size < 2 ^ 63) → offset ≤ headerSize → 1 ≤ dataSize →
    1 ≤ bufferSize → bufferSize < 2 ^ 64 →
    ksiSPSCBufferAlloc malloc garbage offset headerSize dataSize bufferSize = some buf →
    ∀ calls : List (Call dataSize), AsQueue buf bufferSize calls := by
  intro h
  obtain ⟨buf', hrun, -⟩ := h someMalloc (fun _ => 0) 136 256 1 1 (newBuffer 1) someMalloc_lt
    (by decide) (by decide) (by decide) (by decide) rfl (pushPops 122)
  have hsized : Sized (newBuffer 1).allocated 1 1 := ⟨by decide, by decide, fun n hn => by
    have hle : n * 1 ≤ 121 := hn
    omega⟩
  have hstores : Stores (newBuffer 1) 1 ([] : List (Item 1)) 0 := stores_alloc hsized
    (show ksiSPSCBufferAlloc someMalloc (fun _ => 0) 136 256 1 1 = some (newBuffer 1) from rfl)
  have hmany : ¬ 0 + accepted 1 [] (pushPops 122) ≤ (newBuffer 1).room 1 := by decide +kernel
  cases (hstores.run_outside hmany).symm.trans hrun

end Ksi.Spsc
