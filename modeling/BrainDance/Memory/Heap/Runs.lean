import BrainDance.Memory.Heap

/-!
Owns the runs of the bump allocator: any sequence of `kmalloc` and
`alloc_aligned` calls from the empty heap, and what holds of the blocks they
return.

The limit test adds the size modulo 2^32, so a size near 2^32 passes it and
moves `heap_ptr` back. The blocks are in range, disjoint and aligned exactly
when no call does that.
-/

namespace BrainDance.Memory

open BrainDance.Foundation

/-- A call of the allocator; `alloc_aligned` gets the alignment 2^bits. -/
inductive HeapCall where
  | kmalloc (size : Word)
  | allocAligned (size : Word) (bits : Fin 32)
deriving DecidableEq

namespace HeapCall

def size : HeapCall → Word
  | .kmalloc size => size
  | .allocAligned size _ => size

/-- The alignment asked for; `kmalloc` asks for none. -/
def alignment : HeapCall → Word
  | .kmalloc _ => 1
  | .allocAligned _ bits => BitVec.twoPow 32 bits

/-- The address the call tries to return. -/
def address (heapPtr : Word) : HeapCall → Word
  | .kmalloc _ => heapPtr
  | .allocAligned _ bits => alignUp heapPtr (BitVec.twoPow 32 bits)

def exec (heapPtr : Word) : HeapCall → Word × Word
  | .kmalloc size => Memory.kmalloc heapPtr size
  | .allocAligned size bits => Memory.allocAligned heapPtr size (BitVec.twoPow 32 bits)

/-- The end of the block is past 2^32, but its low 32 bits pass the limit test. -/
def Wraps (heapPtr : Word) (call : HeapCall) : Prop :=
  2 ^ 32 ≤ (call.address heapPtr).toNat + call.size.toNat ∧
    (call.address heapPtr).toNat + call.size.toNat ≤ 2 ^ 32 + heapEnd.toNat

instance (heapPtr : Word) (call : HeapCall) : Decidable (call.Wraps heapPtr) :=
  inferInstanceAs (Decidable (_ ∧ _))

end HeapCall

/-- A call with the block it returned, 0 for none, and `heap_ptr` around it. -/
structure HeapEvent where
  call : HeapCall
  before : Word
  block : Word
  after : Word
deriving DecidableEq

namespace HeapEvent

/-- The first address behind the block. -/
def blockEnd (event : HeapEvent) : Nat :=
  event.block.toNat + event.call.size.toNat

/-- Two calls got no common byte. -/
def Apart (left right : HeapEvent) : Prop :=
  left.block ≠ 0 → right.block ≠ 0 →
    left.blockEnd ≤ right.block.toNat ∨ right.blockEnd ≤ left.block.toNat

/-- What one call promises: a block of the heap with the alignment asked for, or
no block and `heap_ptr` as it was. -/
structure Ok (event : HeapEvent) : Prop where
  inHeap : event.block ≠ 0 →
    heapStart.toNat ≤ event.block.toNat ∧ event.blockEnd ≤ heapEnd.toNat
  aligned : event.block ≠ 0 → event.call.alignment.toNat ∣ event.block.toNat
  grows : event.before.toNat ≤ event.after.toNat
  nullKeeps : event.block = 0 → event.after = event.before

end HeapEvent

/-- The calls made one after another from `heap_ptr`. -/
def heapTrace (heapPtr : Word) : List HeapCall → List HeapEvent
  | [] => []
  | call :: rest =>
      ⟨call, heapPtr, (call.exec heapPtr).1, (call.exec heapPtr).2⟩ ::
        heapTrace (call.exec heapPtr).2 rest

/-- What the allocator promises of a whole run. -/
def HeapOk (events : List HeapEvent) : Prop :=
  (∀ event ∈ events, event.Ok) ∧ events.Pairwise HeapEvent.Apart

section Calls

variable {heapPtr : Word} {call : HeapCall}

theorem HeapCall.exec_eq (heapPtr : Word) (call : HeapCall) :
    call.exec heapPtr =
      if call.address heapPtr + call.size > heapEnd then (0, heapPtr)
      else (call.address heapPtr, call.address heapPtr + call.size) := by
  cases call <;> rfl

/-- Inside the heap an address is rounded up to a multiple of the alignment. -/
theorem HeapCall.address_spec (below : heapPtr.toNat ≤ 0x800000) (call : HeapCall) :
    heapPtr.toNat ≤ (call.address heapPtr).toNat ∧
      call.alignment.toNat ∣ (call.address heapPtr).toNat := by
  cases call with
  | kmalloc size => exact ⟨Nat.le_refl _, Nat.one_dvd _⟩
  | allocAligned size bits =>
      have positive : 0 < 2 ^ (bits : Nat) := Nat.two_pow_pos bits
      have power : 2 ^ (bits : Nat) < 2 ^ 32 := Nat.pow_lt_pow_right (by decide) bits.isLt
      have value : (BitVec.twoPow 32 bits).toNat = 2 ^ (bits : Nat) := by
        rw [BitVec.toNat_twoPow, Nat.mod_eq_of_lt power]
      simp only [address, alignment]
      rw [alignUp_twoPow_toNat below bits.isLt, value]
      refine ⟨?_, Nat.dvd_mul_left _ _⟩
      have division := Nat.div_add_mod' (heapPtr.toNat + (2 ^ (bits : Nat) - 1)) (2 ^ (bits : Nat))
      have remainder := Nat.mod_lt (heapPtr.toNat + (2 ^ (bits : Nat) - 1)) positive
      omega

/-- A call that does not wrap is refused, or its block ends in the heap. -/
theorem HeapCall.exec_cases (unwrapped : ¬ call.Wraps heapPtr) :
    call.exec heapPtr = (0, heapPtr) ∨
      ((call.address heapPtr).toNat + call.size.toNat ≤ 0x800000 ∧
        call.exec heapPtr = (call.address heapPtr, call.address heapPtr + call.size)) := by
  rw [exec_eq]
  split
  · exact .inl rfl
  · rename_i accepted
    refine .inr ⟨?_, rfl⟩
    rw [gt_iff_lt, BitVec.lt_def, BitVec.toNat_add, heapEnd_toNat] at accepted
    rw [Wraps, heapEnd_toNat] at unwrapped
    omega

/-- A call that wraps is accepted. -/
theorem HeapCall.exec_of_wraps (wraps : call.Wraps heapPtr) :
    call.exec heapPtr = (call.address heapPtr, call.address heapPtr + call.size) := by
  rw [Wraps, heapEnd_toNat] at wraps
  rw [exec_eq, if_neg]
  rw [gt_iff_lt, BitVec.lt_def, BitVec.toNat_add, heapEnd_toNat]
  omega

end Calls

/-! ### Runs -/

section Runs

variable {heapPtr : Word} {calls : List HeapCall}

/-- One call that does not wrap keeps its promises and moves `heap_ptr` to the
end of its block, still in the heap. -/
theorem heapEvent_ok {call : HeapCall} (above : 0x400000 ≤ heapPtr.toNat)
    (below : heapPtr.toNat ≤ 0x800000) (unwrapped : ¬ call.Wraps heapPtr) :
    (HeapEvent.mk call heapPtr (call.exec heapPtr).1 (call.exec heapPtr).2).Ok ∧
      heapPtr.toNat ≤ (call.exec heapPtr).2.toNat ∧ (call.exec heapPtr).2.toNat ≤ 0x800000 ∧
      ((call.exec heapPtr).1 ≠ 0 →
        (call.exec heapPtr).1.toNat + call.size.toNat ≤ (call.exec heapPtr).2.toNat) := by
  have start : heapStart.toNat = 0x400000 := rfl
  obtain ⟨raised, aligned⟩ := call.address_spec below
  rcases HeapCall.exec_cases unwrapped with refused | ⟨fits, accepted⟩
  · rw [refused]
    refine ⟨⟨?_, ?_, Nat.le_refl _, fun _ => rfl⟩, Nat.le_refl _, below, ?_⟩
    all_goals exact fun null => absurd rfl null
  · rw [accepted]
    have sum : (call.address heapPtr + call.size).toNat =
        (call.address heapPtr).toNat + call.size.toNat := by
      rw [BitVec.toNat_add, Nat.mod_eq_of_lt (by omega)]
    refine ⟨⟨fun _ => ⟨?_, ?_⟩, fun _ => aligned, ?_, ?_⟩, ?_, ?_, fun _ => ?_⟩
    · show heapStart.toNat ≤ (call.address heapPtr).toNat
      omega
    · show (call.address heapPtr).toNat + call.size.toNat ≤ heapEnd.toNat
      rw [heapEnd_toNat]
      exact fits
    · show heapPtr.toNat ≤ (call.address heapPtr + call.size).toNat
      omega
    · intro null
      have zero : (call.address heapPtr).toNat = 0 := congrArg BitVec.toNat null
      omega
    · show heapPtr.toNat ≤ (call.address heapPtr + call.size).toNat
      omega
    · show (call.address heapPtr + call.size).toNat ≤ 0x800000
      omega
    · show _ ≤ (call.address heapPtr + call.size).toNat
      exact Nat.le_of_eq sum.symm

/-- Later blocks of a run without wrapping lie behind the heap pointer. -/
theorem heapTrace_block_le (above : 0x400000 ≤ heapPtr.toNat) (below : heapPtr.toNat ≤ 0x800000)
    (unwrapped : ∀ event ∈ heapTrace heapPtr calls, ¬ event.call.Wraps event.before) :
    ∀ event ∈ heapTrace heapPtr calls, event.block ≠ 0 →
      heapPtr.toNat ≤ event.block.toNat := by
  induction calls generalizing heapPtr with
  | nil => exact fun _ member => absurd member List.not_mem_nil
  | cons call rest inductionHypothesis =>
      intro event member some
      rw [heapTrace, List.forall_mem_cons] at unwrapped
      obtain ⟨_, grows, inHeap, _⟩ := heapEvent_ok above below unwrapped.1
      rcases List.mem_cons.mp member with here | later
      · subst here
        rcases HeapCall.exec_cases unwrapped.1 with refused | ⟨_, accepted⟩
        · rw [refused] at some
          exact absurd rfl some
        · simp only [accepted]
          exact (call.address_spec below).1
      · have behind := inductionHypothesis (by omega) inHeap unwrapped.2 event later some
        omega

/-- A run without wrapping keeps every promise. -/
theorem heapOk_of_unwrapped (above : 0x400000 ≤ heapPtr.toNat)
    (below : heapPtr.toNat ≤ 0x800000)
    (unwrapped : ∀ event ∈ heapTrace heapPtr calls, ¬ event.call.Wraps event.before) :
    HeapOk (heapTrace heapPtr calls) := by
  induction calls generalizing heapPtr with
  | nil => exact ⟨fun _ member => absurd member List.not_mem_nil, List.Pairwise.nil⟩
  | cons call rest inductionHypothesis =>
      rw [heapTrace, List.forall_mem_cons] at unwrapped
      obtain ⟨ok, grows, inHeap, ends⟩ := heapEvent_ok above below unwrapped.1
      have later := inductionHypothesis (by omega) inHeap unwrapped.2
      refine ⟨List.forall_mem_cons.mpr ⟨ok, later.1⟩, List.Pairwise.cons ?_ later.2⟩
      intro event member here some
      have behind := heapTrace_block_le (by omega) inHeap unwrapped.2 event member some
      exact .inl (Nat.le_trans (ends here) behind)

/-- A run that keeps its blocks in the heap has no call that wraps. -/
theorem unwrapped_of_ok (above : 0x400000 ≤ heapPtr.toNat) (below : heapPtr.toNat ≤ 0x800000)
    (ok : ∀ event ∈ heapTrace heapPtr calls, event.Ok) :
    ∀ event ∈ heapTrace heapPtr calls, ¬ event.call.Wraps event.before := by
  induction calls generalizing heapPtr with
  | nil => exact fun _ member => absurd member List.not_mem_nil
  | cons call rest inductionHypothesis =>
      rw [heapTrace, List.forall_mem_cons] at ok ⊢
      have unwrapped : ¬ call.Wraps heapPtr := by
        intro wraps
        have raised := (call.address_spec below).1
        have block := HeapCall.exec_of_wraps wraps
        have some : call.address heapPtr ≠ 0 := by
          intro null
          have zero : (call.address heapPtr).toNat = 0 := congrArg BitVec.toNat null
          omega
        have inHeap := ok.1.inHeap
        simp only [HeapEvent.blockEnd, block, heapEnd_toNat] at inHeap
        have ends := (inHeap some).2
        have wrapped := wraps.1
        omega
      obtain ⟨_, grows, inHeap, _⟩ := heapEvent_ok above below unwrapped
      exact ⟨unwrapped, inductionHypothesis (by omega) inHeap ok.2⟩

/-- The blocks of a run from the empty heap are in range, aligned and disjoint,
with `heap_ptr` growing, exactly when no call wraps past the limit test. -/
theorem heapOk_iff_unwrapped (calls : List HeapCall) :
    HeapOk (heapTrace heapStart calls) ↔
      ∀ event ∈ heapTrace heapStart calls, ¬ event.call.Wraps event.before := by
  have above : 0x400000 ≤ heapStart.toNat := by decide
  have below : heapStart.toNat ≤ 0x800000 := by decide
  constructor
  · exact fun ok => unwrapped_of_ok above below ok.1
  · exact heapOk_of_unwrapped above below

/-- `kmalloc(0xFFFFFFFF)` returns a block that ends beyond the heap. -/
theorem kmalloc_wraps : ¬ ∀ calls, HeapOk (heapTrace heapStart calls) := by
  intro always
  have inHeap := ((always [.kmalloc 0xFFFFFFFF]).1
    ⟨.kmalloc 0xFFFFFFFF, heapStart, heapStart, 0x3FFFFF⟩ (by decide)).inHeap (by decide)
  exact absurd inHeap.2 (by decide)

end Runs

end BrainDance.Memory
