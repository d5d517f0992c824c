import KushOs.Foundation.WordBitmap
import KushOs.Kernel.Platform
import KushOs.Kernel.Vm.Types
import Mathlib.Tactic.Ring

/-!
# Physical memory regions

`Memory::Region`: a contiguous range of physical memory whose first pages hold a bitmap of the
others; a set bit marks a free page. The memory behind the bitmap pointer is `words`, indexed by
64-bit word, so that its content before construction and past the last page of the region stay
visible.

## Main definitions

* `Region.new`, `Region.alloc`, `Region.free`, `Region.contains`: the code of `Region.cpp`.
* `Region.freeBits`: the set bits in the words that `alloc` scans, in scan order.
* `Taking.take`: one page taken; the abstract step of the allocation loop.

## Main results

* `Region.allocWords_eq`: the nested loops of `Region::alloc` take exactly the first bits of
  `freeBits`, one after the other.
-/

namespace KushOs.Memory

open WordBitmap

/-- A caller's array of page addresses, by index. -/
abbrev AddrBuffer := ℕ → BitVec 64

/-- `Memory::Region`. -/
structure Region where
  /-- Physical base address of the region. -/
  physBase : BitVec 64
  /-- Total number of pages, those of the bitmap included. -/
  numPages : ℕ
  /-- Physical address of the bitmap. -/
  bitmapPhys : BitVec 64
  /-- Number of allocatable pages. -/
  bitmapSize : ℕ
  /-- Bytes set aside for the bitmap. -/
  bitmapReserved : ℕ
  /-- Virtual address of the bitmap. -/
  bitmap : BitVec 64
  /-- The memory from `bitmap` on, in 64-bit words. -/
  words : Words
  /-- The object that maps the bitmap into the kernel's map. -/
  bitmapVm : Vm.ContiguousPhysRegion
  /-- Physical address of the first allocatable page. -/
  allocBasePhys : BitVec 64
  /-- Number of allocated pages. -/
  numAllocated : BitVec 64

namespace Region

/-- Bytes of the bitmap of a region of `numPages` pages. -/
def bitmapBytes (numPages : ℕ) : ℕ := (numPages + (8 - 1)) / 8

/-- Pages set aside for that bitmap. -/
def bitmapPages (numPages : ℕ) : ℕ := (bitmapBytes numPages + (pageSize - 1)) / pageSize

/-- `Region::Region`. `prior` is the content of the memory that becomes the bitmap. -/
def new (earlyBoot : Bool) (base : BitVec 64) (length : ℕ) (prior : Words) :
    Except Fault Region := do
  require (length ≠ 0)
  let numPages := length / pageSize
  let reserved := bitmapPages numPages * pageSize
  let addr ← PhysicalMap.add earlyBoot base reserved
  return {
    physBase := base
    numPages := numPages
    bitmapPhys := base
    bitmapSize := numPages - bitmapPages numPages
    bitmapReserved := reserved
    bitmap := addr
    words := memset prior 0xFF (bitmapBytes numPages)
    bitmapVm := { physBase := base, length := reserved, accessMode := Vm.Mode.kernelRW }
    allocBasePhys := base + BitVec.ofNat 64 reserved
    numAllocated := 0 }

/-- `Region::contains`. -/
def contains (r : Region) (address : BitVec 64) : Bool :=
  r.physBase ≤ address && address < r.physBase + BitVec.ofNat 64 r.numPages

/-- Address of the page that bit `b` stands for. -/
def pageAddr (r : Region) (b : ℕ) : BitVec 64 := r.allocBasePhys + BitVec.ofNat 64 (b * pageSize)

/-- Number of words `alloc` looks at: `off` runs through the multiples of 64 below `bitmapSize`. -/
def scannedWords (r : Region) : ℕ := (r.bitmapSize + 63) / 64

/-- The set bits in the words `alloc` looks at, in the order it meets them. -/
def freeBits (r : Region) : List ℕ := setBits r.words 0 r.scannedWords

end Region

/-! ## Allocation -/

/-- The variables of `Region::alloc`: the bitmap, the caller's array, the number of pages stored
so far and the region's counter. -/
structure Taking where
  /-- The bitmap. -/
  words : Words
  /-- The caller's array. -/
  out : AddrBuffer
  /-- Pages stored so far. -/
  satisfied : ℕ
  /-- The region's counter of allocated pages. -/
  numAllocated : BitVec 64

/-- Take the page of bit `b`, whose address is `addr b`: clear the bit, store the address, count
it twice. -/
def Taking.take (addr : ℕ → BitVec 64) (st : Taking) (b : ℕ) : Taking where
  words := clearBit st.words b
  out := Function.update st.out st.satisfied (addr b)
  satisfied := st.satisfied + 1
  numAllocated := st.numAllocated + 1

namespace Region

/-- The `do … while` loop over word `w`. The loop runs at most once for each of the 64 bits, which
is what the first argument counts. -/
def allocWord (r : Region) (numPages w : ℕ) : ℕ → Taking → Taking
  | 0, st => st
  | n + 1, st =>
      let i := ffs (st.words w)
      let val := st.words w &&& ~~~(1#64 <<< (i - 1))
      -- address of the first page of this chunk
      let base := r.allocBasePhys + BitVec.ofNat 64 (w * 64 * pageSize)
      let st' : Taking := {
        words := Function.update st.words w val
        out := Function.update st.out st.satisfied (base + BitVec.ofNat 64 ((i - 1) * pageSize))
        satisfied := st.satisfied + 1
        numAllocated := st.numAllocated + 1 }
      if val ≠ 0 ∧ st'.satisfied < numPages then allocWord r numPages w n st' else st'

/-- The `for` loop over the words from `w` on. -/
def allocWords (r : Region) (numPages w : ℕ) : ℕ → Taking → Taking
  | 0, st => st
  | n + 1, st =>
      if st.words w = 0 then allocWords r numPages (w + 1) n st
      else
        let st' := allocWord r numPages w 64 st
        if st'.satisfied = numPages then st' else allocWords r numPages (w + 1) n st'

/-- `Region::alloc`: the returned `int`, the caller's array and the region afterwards. -/
def alloc (r : Region) (numPages : ℕ) (outAddrs : AddrBuffer) : ℤ × AddrBuffer × Region :=
  let st := allocWords r numPages 0 r.scannedWords
    { words := r.words, out := outAddrs, satisfied := 0, numAllocated := r.numAllocated }
  (toInt32 st.satisfied, st.out, { r with words := st.words, numAllocated := st.numAllocated })

/-! ## Release -/

/-- Release the page at `addr`, which `contains` accepted. For an address of the pages that hold the
bitmap the difference wraps; the word is then so far behind the bitmap that its address is not
canonical, and the store faults before anything is counted. -/
def freePage (r : Region) (addr : BitVec 64) : Except Fault Region :=
  let offset := addr - r.allocBasePhys
  let page := offset / BitVec.ofNat 64 pageSize
  if page.toNat / 64 < r.bitmapReserved / 8 then
    .ok { r with words := setBit r.words page.toNat, numAllocated := r.numAllocated - 1 }
  else .error .overrun

/-- The loop of `Region::free`: the number of pages freed and the region afterwards. -/
def freePages : Region → List (BitVec 64) → Except Fault (ℕ × Region)
  | r, [] => .ok (0, r)
  | r, addr :: rest =>
      if r.contains addr then do
        let r' ← r.freePage addr
        let (freed, r'') ← freePages r' rest
        return (freed + 1, r'')
      else freePages r rest

/-- `Region::free`: the returned `int` and the region afterwards. -/
def free (r : Region) (inAddrs : List (BitVec 64)) : Except Fault (ℤ × Region) := do
  let (freed, r') ← r.freePages inAddrs
  return (toInt32 freed, r')

end Region

/-! ## The allocation loop takes the first free bits -/

namespace Taking

variable {addr : ℕ → BitVec 64}

/-- The state after taking the bits `bs` in order. -/
def takes (addr : ℕ → BitVec 64) (st : Taking) (bs : List ℕ) : Taking :=
  bs.foldl (Taking.take addr) st

@[simp]
theorem takes_nil (st : Taking) : takes addr st [] = st := rfl

@[simp]
theorem takes_cons (st : Taking) (b : ℕ) (bs : List ℕ) :
    takes addr st (b :: bs) = takes addr (st.take addr b) bs := rfl

theorem takes_append (st : Taking) (bs cs : List ℕ) :
    takes addr st (bs ++ cs) = takes addr (takes addr st bs) cs :=
  List.foldl_append

/-- Each page taken is counted. -/
@[simp]
theorem takes_satisfied (st : Taking) (bs : List ℕ) :
    (takes addr st bs).satisfied = st.satisfied + bs.length := by
  induction bs generalizing st with
  | nil => simp
  | cons b bs ih => simp [ih, take]; omega

/-- Each page taken is added to the region's counter. -/
@[simp]
theorem takes_numAllocated (st : Taking) (bs : List ℕ) :
    (takes addr st bs).numAllocated = st.numAllocated + BitVec.ofNat 64 bs.length := by
  induction bs generalizing st with
  | nil => simp
  | cons b bs ih =>
    simp only [takes_cons, ih, take, List.length_cons, BitVec.ofNat_add]
    rw [BitVec.add_assoc, BitVec.add_comm 1]
    rfl

/-- The bits taken are cleared. -/
@[simp]
theorem takes_words (st : Taking) (bs : List ℕ) :
    (takes addr st bs).words = clearBits st.words bs := by
  induction bs generalizing st with
  | nil => rfl
  | cons b bs ih => simp [ih, take]

/-- The addresses of the pages taken are stored one after the other from where the array was
filled; the rest of the array is untouched. -/
theorem takes_out (st : Taking) (bs : List ℕ) (k : ℕ) :
    (takes addr st bs).out k =
      if k < st.satisfied then st.out k
      else ((bs.map addr)[k - st.satisfied]?).getD (st.out k) := by
  induction bs generalizing st with
  | nil => simp
  | cons b bs ih =>
    simp only [takes_cons, ih, take, List.map_cons]
    rcases lt_trichotomy k st.satisfied with hlt | rfl | hgt
    · have hne : k ≠ st.satisfied := by omega
      have hlt' : k < st.satisfied + 1 := by omega
      simp [hlt, hlt', Function.update_of_ne hne]
    · simp
    · have hne : k ≠ st.satisfied := by omega
      have hnlt : ¬ k < st.satisfied := by omega
      have hnlt' : ¬ k < st.satisfied + 1 := by omega
      obtain ⟨j, hj⟩ : ∃ j, k - st.satisfied = j + 1 := ⟨k - st.satisfied - 1, by omega⟩
      have hj' : k - (st.satisfied + 1) = j := by omega
      simp [hnlt, hnlt', hj, hj', Function.update_of_ne hne]

end Taking

namespace Region

/-- The address stored for bit `i` of word `w` is the address of page `64 * w + i`. -/
theorem chunk_addr (r : Region) (w i : ℕ) :
    r.allocBasePhys + BitVec.ofNat 64 (w * 64 * pageSize) + BitVec.ofNat 64 (i * pageSize) =
      r.pageAddr (64 * w + i) := by
  have hsum : (64 * w + i) * pageSize = w * 64 * pageSize + i * pageSize := by ring
  rw [pageAddr, hsum, BitVec.ofNat_add, BitVec.add_assoc]

/-- The loop over a non-zero word takes its set bits, least significant first, until the word is
empty or the request is satisfied. -/
theorem allocWord_eq (r : Region) (numPages w n : ℕ) (st : Taking)
    (hn : (bitPositions (st.words w)).length ≤ n) (hval : st.words w ≠ 0)
    (hsat : st.satisfied < numPages) :
    allocWord r numPages w n st =
      Taking.takes r.pageAddr st
        (((bitPositions (st.words w)).map (64 * w + ·)).take (numPages - st.satisfied)) := by
  induction n generalizing st with
  | zero =>
    have hnil := List.eq_nil_of_length_eq_zero (Nat.le_zero.mp hn)
    exact absurd (bitPositions_eq_nil.mp hnil) hval
  | succ n ih =>
    have hpos := bitPositions_eq_cons hval
    have hi : ffs (st.words w) - 1 < 64 := by
      have hmem : ffs (st.words w) - 1 ∈ bitPositions (st.words w) := by
        rw [hpos]
        exact List.mem_cons_self
      simp only [bitPositions, List.mem_filter, List.mem_range] at hmem
      exact hmem.1
    -- one turn of the loop is one `take`
    have hturn : (⟨Function.update st.words w
          (st.words w &&& ~~~(1#64 <<< (ffs (st.words w) - 1))),
          Function.update st.out st.satisfied
            (r.allocBasePhys + BitVec.ofNat 64 (w * 64 * pageSize) +
              BitVec.ofNat 64 ((ffs (st.words w) - 1) * pageSize)),
          st.satisfied + 1, st.numAllocated + 1⟩ : Taking) =
        st.take r.pageAddr (64 * w + (ffs (st.words w) - 1)) := by
      rw [Taking.take, chunk_addr, update_word_eq_clearBit _ _ hi]
    have hword : (st.take r.pageAddr (64 * w + (ffs (st.words w) - 1))).words w =
        st.words w &&& ~~~(1#64 <<< (ffs (st.words w) - 1)) := by
      rw [← hturn]
      simp
    obtain ⟨k, hk⟩ : ∃ k, numPages - st.satisfied = k + 1 :=
      ⟨numPages - st.satisfied - 1, by omega⟩
    rw [hpos] at hn
    simp only [List.length_cons, Nat.add_le_add_iff_right] at hn
    rw [allocWord]
    simp only [hturn]
    rw [hpos, hk, List.map_cons, List.take_succ_cons, Taking.takes_cons]
    split
    next hmore =>
      have hsat' : (st.take r.pageAddr (64 * w + (ffs (st.words w) - 1))).satisfied =
          st.satisfied + 1 := rfl
      have hk' : numPages - (st.satisfied + 1) = k := by omega
      rw [ih _ (by rw [hword]; exact hn) (by rw [hword]; exact hmore.1) hmore.2, hword, hsat', hk']
    next hstop =>
      by_cases hempty : st.words w &&& ~~~(1#64 <<< (ffs (st.words w) - 1)) = 0
      · rw [hempty, bitPositions_eq_nil.mpr rfl]
        simp
      · have hk0 : k = 0 := by
          by_contra hne
          exact hstop ⟨hempty, by omega⟩
        simp [hk0]

/-- Pages taken from word `w` leave the words above it alone. -/
theorem takes_words_above (st : Taking) {addr : ℕ → BitVec 64} {w k : ℕ} {bs : List ℕ}
    (hbs : ∀ b ∈ bs, b / 64 = w) (hk : w + 1 ≤ k) :
    (Taking.takes addr st bs).words k = st.words k := by
  apply word_eq_of_bit
  intro i hi
  have hnot : 64 * k + i ∉ bs := fun hmem => by
    have := hbs _ hmem
    omega
  simp [hnot]

/-- The loop over the words takes the set bits of all of them, in order, until the request is
satisfied. -/
theorem allocWords_eq (r : Region) (numPages w n : ℕ) (st : Taking)
    (hsat : st.satisfied < numPages) :
    allocWords r numPages w n st =
      Taking.takes r.pageAddr st ((setBits st.words w n).take (numPages - st.satisfied)) := by
  induction n generalizing w st with
  | zero => simp [allocWords, setBits]
  | succ n ih =>
    rw [allocWords, setBits]
    split
    next hzero =>
      rw [ih _ _ hsat, hzero, bitPositions_eq_nil.mpr rfl, List.map_nil, List.nil_append]
    next hval =>
      have hlen : (bitPositions (st.words w)).length ≤ 64 := by
        have := List.length_filter_le (fun i => (st.words w).getLsbD i) (List.range 64)
        simpa [bitPositions] using this
      rw [allocWord_eq r numPages w 64 st hlen hval hsat]
      dsimp only
      set word := (bitPositions (st.words w)).map (64 * w + ·) with hword
      have htaken : (Taking.takes r.pageAddr st
          (word.take (numPages - st.satisfied))).satisfied =
            st.satisfied + min (numPages - st.satisfied) word.length := by simp
      split
      next hdone =>
        -- the word alone satisfies the request
        have hle : numPages - st.satisfied ≤ word.length := by omega
        rw [List.take_append_of_le_length hle]
      next hmore =>
        have hlt : word.length < numPages - st.satisfied := by omega
        have hall : word.take (numPages - st.satisfied) = word :=
          List.take_of_length_le (by omega)
        have hin : ∀ b ∈ word, b / 64 = w := by
          intro b hb
          obtain ⟨i, hi, rfl⟩ := List.mem_map.mp hb
          simp only [bitPositions, List.mem_filter, List.mem_range] at hi
          omega
        have hrest : setBits (Taking.takes r.pageAddr st word).words (w + 1) n =
            setBits st.words (w + 1) n :=
          setBits_congr fun k hk => takes_words_above st hin hk
        have hleft : numPages - (Taking.takes r.pageAddr st word).satisfied =
            numPages - st.satisfied - word.length := by simp; omega
        rw [hall] at htaken ⊢
        rw [ih _ _ (by omega), hrest, hleft, List.take_append, hall, Taking.takes_append]

/-- `Region::alloc` takes the first `numPages` of the region's free bits. -/
theorem alloc_eq (r : Region) {numPages : ℕ} (out : AddrBuffer) (hpos : 0 < numPages) :
    r.alloc numPages out =
      let st := Taking.takes r.pageAddr ⟨r.words, out, 0, r.numAllocated⟩
        (r.freeBits.take numPages)
      (toInt32 (min numPages r.freeBits.length : ℕ), st.out,
        { r with words := st.words, numAllocated := st.numAllocated }) := by
  simp only [alloc, allocWords_eq r numPages 0 r.scannedWords
    ⟨r.words, out, 0, r.numAllocated⟩ hpos, Nat.sub_zero]
  simp [freeBits]

end Region

end KushOs.Memory
