import KushOs.Foundation.ByteBuffer
import KushOs.Foundation.Mixing
import KushOs.Foundation.PegLogic
import KushOs.Idl.Identifiers

/-!
# Hashes of names

`MurmurHash64A` mixes its key in words of eight bytes, the last of which may be shorter. Every step
of it can be undone, so keys of one length that agree outside one word have different hashes. Names
of up to eight characters are such keys.

## Main definitions

* `MurmurHash.AgreeOutside`: keys that agree outside one word.
* `Near`, `HashedApart`: names that do, and interfaces with such names and no decorators.

## Main results

* `murmurHash64A_inj`: keys that agree outside one word have the same hash only if they are the
  same.
* `declarations_named`: what is declared consists of characters of identifiers.
* `hashed_identifiers_unique`: accepted texts whose hashed identifiers are distinct.
-/

namespace KushOs.Idl

open ByteBuffer Mixing

namespace MurmurHash

/-! ## Steps that can be undone -/

/-- The inverse of `m`. -/
def mInverse : UInt64 := 0x5f7a0ea7e59b19bd

/-- The multiplier is odd, so it has an inverse. -/
theorem m_mul_mInverse : m * mInverse = 1 := by decide +kernel

/-- Multiplying by it can be undone. -/
theorem mul_m_injective : Function.Injective fun x : UInt64 => x * m := by
  intro x y heq
  have hcancel : x * m * mInverse = y * m * mInverse := congrArg (· * mInverse) heq
  rwa [UInt64.mul_assoc, UInt64.mul_assoc, m_mul_mInverse, UInt64.mul_one, UInt64.mul_one]
    at hcancel

/-- Xoring the upper bits onto the lower ones can be undone. -/
theorem xorShift47_injective : Function.Injective fun x : UInt64 => x ^^^ (x >>> 47) := by
  intro x y heq
  have hbits : x.toBitVec ^^^ (x.toBitVec >>> 47) = y.toBitVec ^^^ (y.toBitVec >>> 47) :=
    congrArg UInt64.toBitVec heq
  exact UInt64.toBitVec_inj.mp (xorShift_injective (by decide) hbits)

/-- Xoring a word can be undone. -/
theorem xor_injective (h : UInt64) : Function.Injective fun x : UInt64 => h ^^^ x :=
  fun _ _ heq => (UInt64.xor_right_inj h).mp heq

/-- What is mixed in for a word of the key. -/
def mixWord (k : UInt64) : UInt64 := (k * m ^^^ (k * m) >>> 47) * m

/-- A word is mixed without loss. -/
theorem mixWord_injective : Function.Injective mixWord :=
  mul_m_injective.comp (xorShift47_injective.comp mul_m_injective)

/-- A round of the loop over the words. -/
def round (h k : UInt64) : UInt64 := (h ^^^ mixWord k) * m

/-- A round of the loop mixes: neither the state nor the word is lost. -/
theorem round_mixes : Mixes round where
  state k := by
    intro h h' heq
    have hxor : h ^^^ mixWord k = h' ^^^ mixWord k := mul_m_injective heq
    exact (UInt64.xor_left_inj _).mp hxor
  word h := mul_m_injective.comp ((xor_injective h).comp mixWord_injective)

/-- The end of the function. -/
def finish (h : UInt64) : UInt64 := (h ^^^ (h >>> 47)) * m ^^^ ((h ^^^ (h >>> 47)) * m) >>> 47

/-- The last steps lose nothing. -/
theorem finish_injective : Function.Injective finish :=
  xorShift47_injective.comp (mul_m_injective.comp xorShift47_injective)

/-! ## The words of a key -/

/-- The first `n` words of a key. -/
def words (n : ℕ) (data : List UInt8) : List UInt64 :=
  (List.range n).map fun j => word ((data.drop (8 * j)).take 8)

/-- The first word is made of the first eight bytes. -/
theorem words_succ (n : ℕ) (data : List UInt8) :
    words (n + 1) data = word (data.take 8) :: words n (data.drop 8) := by
  rw [words, List.range_succ_eq_map, List.map_cons, List.map_map]
  refine congrArg₂ _ rfl (List.map_congr_left fun j _ => ?_)
  rw [Function.comp_apply, List.drop_drop, Nat.mul_succ, Nat.add_comm]

/-- One round of the loop over the words. -/
theorem wordLoop_succ (n : ℕ) (data : List UInt8) (h : UInt64) :
    wordLoop (n + 1) data h = wordLoop n (data.drop 8)
      ((h ^^^ (word (data.take 8) * m ^^^ (word (data.take 8) * m) >>> 47) * m) * m) := by
  delta wordLoop
  rfl

/-- The loop over the words of the key. -/
theorem wordLoop_eq (n : ℕ) (data : List UInt8) (h : UInt64) :
    wordLoop n data h = ((words n data).foldl round h, data.drop (8 * n)) := by
  induction n generalizing data h with
  | zero => rfl
  | succ n ih =>
      rw [wordLoop_succ, ih, words_succ, List.foldl_cons, List.drop_drop, Nat.mul_succ,
        Nat.add_comm, round, mixWord]

/-- Up to eight bytes make a number of 64 bits. -/
theorem toNat_word {bytes : List UInt8} (h : bytes.length ≤ 8) :
    (word bytes).toNat = ofLittleEndian bytes := by
  induction bytes with
  | nil => rfl
  | cons b bytes ih =>
      rw [List.length_cons] at h
      have hb := b.toNat_lt
      have hlt := ofLittleEndian_lt bytes
      have hpow : 256 ^ bytes.length ≤ 256 ^ 7 := Nat.pow_le_pow_right (by decide) (by omega)
      rw [word, UInt64.toNat_or, UInt64.toNat_shiftLeft, ih (by omega), UInt8.toNat_toUInt64,
        show (8 : UInt64).toNat % 64 = 8 from rfl, Nat.shiftLeft_eq, Nat.mod_eq_of_lt (by omega),
        Nat.or_comm, ← Nat.shiftLeft_eq, ← Nat.shiftLeft_add_eq_or_of_lt (by omega),
        Nat.shiftLeft_eq, ofLittleEndian]
      omega

/-- The bytes of a word can be recovered from it. -/
theorem word_inj {bytes bytes' : List UInt8} (h : bytes.length ≤ 8)
    (hlength : bytes.length = bytes'.length) (heq : word bytes = word bytes') : bytes = bytes' := by
  refine ofLittleEndian_inj hlength ?_
  rw [← toNat_word h, ← toNat_word (hlength ▸ h), heq]

/-- Shifting by whole bytes. -/
theorem toNat_shift {k : ℕ} (hk : k ≤ 7) : ((8 * k).toUInt64.toBitVec % 64).toNat = 8 * k := by
  obtain rfl | rfl | rfl | rfl | rfl | rfl | rfl | rfl : k = 0 ∨ k = 1 ∨ k = 2 ∨ k = 3 ∨ k = 4 ∨
    k = 5 ∨ k = 6 ∨ k = 7 := by omega
  all_goals rfl

/-- The cases of the `switch` mix in the remaining bytes, from some position on, as one word. -/
theorem foldr_zipIdx (bytes : List UInt8) (i : ℕ) (hi : i + bytes.length ≤ 8) (h : UInt64) :
    (bytes.zipIdx i).foldr (fun b h => h ^^^ b.1.toUInt64 <<< (8 * b.2).toUInt64) h =
      h ^^^ word bytes <<< (8 * i).toUInt64 := by
  induction bytes generalizing i with
  | nil => simp [word]
  | cons b bytes ih =>
      rw [List.length_cons] at hi
      rw [List.zipIdx_cons, List.foldr_cons, ih (i + 1) (by omega), word, UInt64.xor_assoc]
      congr 1
      cases bytes with
      | nil => simp [word]
      | cons c bytes =>
          -- the bytes that follow are shifted by eight bits more
          rw [List.length_cons] at hi
          refine UInt64.toBitVec_inj.mp (BitVec.eq_of_getLsbD_eq fun j hj => ?_)
          simp only [UInt64.toBitVec_xor, UInt64.toBitVec_shiftLeft, UInt64.toBitVec_or,
            BitVec.shiftLeft_eq', BitVec.getLsbD_xor, BitVec.getLsbD_or, BitVec.getLsbD_shiftLeft,
            toNat_shift (show i ≤ 7 by omega), toNat_shift (show i + 1 ≤ 7 by omega),
            UInt8.toBitVec_toUInt64, BitVec.getLsbD_setWidth,
            show ((8 : UInt64).toBitVec % 64).toNat = 8 from rfl]
          by_cases hlow : j < 8 * i
          · simp [hlow, show j < 8 * (i + 1) by omega]
          · by_cases hbyte : j < 8 * (i + 1)
            · simp [hlow, hbyte, show j - 8 * i < 8 by omega]
            · -- the byte itself ends below
              have hout : b.toBitVec.getLsbD (j - 8 * i) = false :=
                BitVec.getLsbD_of_ge _ _ (by omega)
              simp [hlow, hbyte, hout, show ¬j - 8 * i < 8 by omega, hj,
                show j - 8 * i - 8 = j - 8 * (i + 1) by omega]
              omega

/-- The `switch` on the rest of the bytes falls through its cases: it mixes in the word that they
make. -/
theorem tail_eq {data2 : List UInt8} (hlength : data2.length ≤ 8) (h : UInt64) :
    tail data2 h = if data2 = [] then h else (h ^^^ word data2) * m := by
  have hfold := foldr_zipIdx data2 0 (by omega) h
  unfold tail
  split
  · rfl
  · rw [hfold]
    congr 2
    exact UInt64.shiftLeft_zero

/-- The bytes that are mixed in at the end can be recovered. -/
theorem tail_inj {rest rest' : List UInt8} (h : UInt64) (hlt : rest.length ≤ 8)
    (hlength : rest.length = rest'.length) (heq : tail rest h = tail rest' h) : rest = rest' := by
  rw [tail_eq hlt, tail_eq (hlength ▸ hlt)] at heq
  by_cases hnil : rest = []
  · rw [hnil] at hlength ⊢
    exact (List.length_eq_zero_iff.mp hlength.symm).symm
  · have hnil' : rest' ≠ [] := by
      rintro rfl
      exact hnil (List.length_eq_zero_iff.mp hlength)
    rw [if_neg hnil, if_neg hnil'] at heq
    exact word_inj hlt hlength (xor_injective h (mul_m_injective heq))

/-- The remaining bytes keep states apart. -/
theorem tail_injective {rest : List UInt8} (hlt : rest.length ≤ 8) :
    Function.Injective (tail rest) := by
  intro h h' heq
  rw [tail_eq hlt, tail_eq hlt] at heq
  split at heq
  · exact heq
  · have hxor : h ^^^ word rest = h' ^^^ word rest := mul_m_injective heq
    exact (UInt64.xor_left_inj _).mp hxor

/-- The loop over the words, the remaining bytes, and the end of the function. -/
theorem murmurHash64A_eq (key : List UInt8) (seed : UInt64) :
    murmurHash64A key seed = finish (tail (key.drop (8 * (key.length / 8)))
      ((words (key.length / 8) key).foldl round (seed ^^^ key.length.toUInt64 * m))) := by
  unfold murmurHash64A
  dsimp only
  rw [wordLoop_eq, finish]

/-! ## Keys that differ in one word -/

/-- Two keys agree outside the word at index `i`. -/
def AgreeOutside (i : ℕ) (key key' : List UInt8) : Prop := ∀ j, j / 8 ≠ i → key[j]? = key'[j]?

variable {i : ℕ} {key key' : List UInt8}

/-- The bytes of the word at index `j`. -/
def bytesAt (key : List UInt8) (j : ℕ) : List UInt8 := (key.drop (8 * j)).take 8

/-- Where the bytes of a word lie in the key. -/
theorem getElem?_bytesAt (key : List UInt8) (j : ℕ) {k : ℕ} (hk : k < 8) :
    (bytesAt key j)[k]? = key[8 * j + k]? := by
  rw [bytesAt, List.getElem?_take_of_lt hk, List.getElem?_drop]

/-- A word has at most eight bytes. -/
theorem length_bytesAt_le (key : List UInt8) (j : ℕ) : (bytesAt key j).length ≤ 8 :=
  List.length_take_le 8 _

/-- How many bytes a word has depends on the length of the key only. -/
theorem length_bytesAt (h : key.length = key'.length) (j : ℕ) :
    (bytesAt key j).length = (bytesAt key' j).length := by
  rw [bytesAt, bytesAt, List.length_take, List.length_take, List.length_drop, List.length_drop, h]

/-- There are as many words as were asked for. -/
theorem length_words (n : ℕ) (key : List UInt8) : (words n key).length = n := by
  rw [words, List.length_map, List.length_range]

/-- The word at a position is made of the bytes there. -/
theorem getElem?_words {n j : ℕ} (hj : j < n) (key : List UInt8) :
    (words n key)[j]? = some (word (bytesAt key j)) := by
  rw [words, List.getElem?_map, List.getElem?_range hj]
  rfl

/-- Keys that agree outside a word have the same bytes at the other words. -/
theorem AgreeOutside.bytesAt (h : AgreeOutside i key key') {j : ℕ} (hj : j ≠ i) :
    bytesAt key j = MurmurHash.bytesAt key' j := by
  refine List.ext_getElem? fun k => ?_
  rcases Nat.lt_or_ge k 8 with hk | hk
  · rw [getElem?_bytesAt key j hk, getElem?_bytesAt key' j hk]
    exact h _ (by omega)
  · rw [List.getElem?_eq_none ((length_bytesAt_le key j).trans hk),
      List.getElem?_eq_none ((length_bytesAt_le key' j).trans hk)]

/-- The other words are the same. -/
theorem AgreeOutside.words (h : AgreeOutside i key key') (n : ℕ) {j : ℕ} (hj : j ≠ i) :
    (words n key)[j]? = (MurmurHash.words n key')[j]? := by
  rcases Nat.lt_or_ge j n with hlt | hge
  · rw [getElem?_words hlt, getElem?_words hlt, h.bytesAt hj]
  · rw [List.getElem?_eq_none ((length_words n key).le.trans hge),
      List.getElem?_eq_none ((length_words n key').le.trans hge)]

/-- A key is known from its words and the remaining bytes. -/
theorem eq_of_words {n : ℕ} (hlength : key.length = key'.length)
    (hwords : words n key = words n key') (hrest : key.drop (8 * n) = key'.drop (8 * n)) :
    key = key' := by
  refine List.ext_getElem? fun j => ?_
  rcases Nat.lt_or_ge (j / 8) n with hlt | hge
  · have hword := getElem?_words hlt key
    rw [hwords, getElem?_words hlt key', Option.some_inj] at hword
    have hbytes := word_inj (length_bytesAt_le _ _) (length_bytesAt hlength.symm (j / 8)) hword
    have hmod : j % 8 < 8 := Nat.mod_lt _ (by decide)
    have hbyte := getElem?_bytesAt key (j / 8) hmod
    rw [← hbytes, getElem?_bytesAt key' (j / 8) hmod, Nat.div_add_mod] at hbyte
    exact hbyte.symm
  · have hbyte := congrArg (·[j - 8 * n]?) hrest
    simp only [List.getElem?_drop] at hbyte
    rwa [show 8 * n + (j - 8 * n) = j by omega] at hbyte

end MurmurHash

open MurmurHash in
/-- Keys of one length that agree outside one word have the same hash only if they are the same. -/
theorem murmurHash64A_inj {key key' : List UInt8} {i : ℕ} (hlength : key.length = key'.length)
    (hagree : AgreeOutside i key key') (seed : UInt64) :
    murmurHash64A key seed = murmurHash64A key' seed ↔ key = key' := by
  refine ⟨fun heq => ?_, fun heq => by rw [heq]⟩
  rw [murmurHash64A_eq, murmurHash64A_eq, ← hlength] at heq
  have heq := finish_injective heq
  generalize hn : key.length / 8 = n at heq
  have hshort : (key.drop (8 * n)).length ≤ 8 := by
    rw [List.length_drop]
    omega
  rcases Nat.lt_or_ge i n with hlt | hge
  · -- the keys differ in a word of the loop
    have hrest : key.drop (8 * n) = key'.drop (8 * n) := by
      refine List.ext_getElem? fun k => ?_
      rw [List.getElem?_drop, List.getElem?_drop]
      exact hagree _ (by omega)
    rw [← hrest] at heq
    have hwords := (round_mixes.foldl_inj ((length_words n key).trans (length_words n key').symm)
      (fun j hj => hagree.words n hj) _).mp (tail_injective hshort heq)
    exact eq_of_words hlength hwords hrest
  · -- they differ in the remaining bytes
    have hwords : words n key = words n key' := by
      refine List.ext_getElem? fun j => ?_
      rcases Nat.lt_or_ge j n with hj | hj
      · exact hagree.words n (by omega)
      · rw [List.getElem?_eq_none ((length_words n key).le.trans hj),
          List.getElem?_eq_none ((length_words n key').le.trans hj)]
    rw [← hwords] at heq
    have hrest := tail_inj _ hshort (by rw [List.length_drop, List.length_drop, hlength]) heq
    exact eq_of_words hlength hwords hrest

/-! ## Declared names -/

open Peg Grammar

/-- The text consists of characters of identifiers. -/
def IsName (name : String) : Prop := ∀ c ∈ name.toList, isIdentifierOther c = true

/-- A character that starts an identifier may also stand later in it. -/
theorem isIdentifierOther_of_first {c : Char} (h : isIdentifierFirst c = true) :
    isIdentifierOther c = true := by
  simp [isIdentifierOther, h]

/-- The characters of identifiers are ASCII characters. -/
theorem toNat_lt_of_isIdentifierOther {c : Char} (h : isIdentifierOther c = true) :
    c.toNat < 128 := by
  have hval : ∀ d : Char, d.toNat < 128 → c ≤ d → c.toNat < 128 := fun d hd hle =>
    (UInt32.le_iff_toNat_le.mp (Char.le_def.mp hle)).trans_lt hd
  simp only [isIdentifierOther, isIdentifierFirst, decide_eq_true_eq, Bool.decide_or,
    Bool.or_eq_true, Bool.decide_and, Bool.and_eq_true] at h
  obtain ((⟨-, h⟩ | ⟨-, h⟩ | rfl) | ⟨-, h⟩) := h
  · exact hval 'z' (by decide) h
  · exact hval 'Z' (by decide) h
  · decide
  · exact hval '9' (by decide) h

/-- The bytes that are hashed tell names apart. -/
theorem bytesOf_inj {a b : String} (ha : IsName a) (hb : IsName b) (h : bytesOf a = bytesOf b) :
    a = b := by
  have hinj : ∀ c d : Char, isIdentifierOther c = true → isIdentifierOther d = true →
      c.toNat.toUInt8 = d.toNat.toUInt8 → c = d := by
    intro c d hc hd heq
    have hc := toNat_lt_of_isIdentifierOther hc
    have hd := toNat_lt_of_isIdentifierOther hd
    have heq : (UInt8.ofNat c.toNat).toNat = (UInt8.ofNat d.toNat).toNat := congrArg _ heq
    rw [UInt8.toNat_ofNat', UInt8.toNat_ofNat', Nat.mod_eq_of_lt (by omega),
      Nat.mod_eq_of_lt (by omega)] at heq
    exact Char.toNat_inj.mp heq
  refine String.toList_inj.mp ?_
  rw [bytesOf, bytesOf] at h
  unfold IsName at ha hb
  generalize a.toList = cs at h ha
  generalize b.toList = ds at h hb
  induction cs generalizing ds with
  | nil => exact (List.map_eq_nil_iff.mp h.symm).symm
  | cons c cs ih =>
      cases ds with
      | nil => cases h
      | cons d ds =>
          obtain ⟨hfirst, hrest⟩ := List.cons.inj h
          rw [List.forall_mem_cons] at ha hb
          rw [hinj c d ha.1 hb.1 hfirst, ih ha.2 ds hrest hb.2]

/-- Only names are noted as such. -/
structure Recorder.Named (r : Recorder) : Prop where
  name : IsName r.name
  methods : ∀ d ∈ r.methods, IsName d.name
  interfaces : ∀ ds ∈ r.interfaces, ∀ d ∈ ds, IsName d.name

/-- Every action keeps it that the names are names. -/
theorem Recorder.Named.act {r : Recorder} (h : r.Named) {a : Grammar.Action} {text : String}
    (htext : a = .methodName → IsName text) : (r.act text a).Named := by
  cases a with
  | interfaceName => exact { h with methods := by simp [Recorder.act] }
  | interfaceEnd =>
      refine { h with interfaces := fun ds hds => ?_ }
      rcases List.mem_append.mp hds with hds | hds
      · exact h.interfaces ds hds
      · obtain rfl := List.mem_singleton.mp hds
        exact h.methods
  | methodName => exact { h with name := htext rfl }
  | methodEnd =>
      refine { h with methods := fun d hd => ?_ }
      rcases List.mem_append.mp hd with hd | hd
      · exact h.methods d hd
      · obtain rfl := List.mem_singleton.mp hd
        exact h.name
  | _ => exact { h with }

/-- What is known of an action of the grammar: the text of a name is one. -/
def ActionTexts (a : Grammar.Action) (r : G) : Prop :=
  r.silent = true ∧ (a = .methodName → r.Over fun c => isIdentifierOther c = true)

/-- The grammar runs the action of a method's name on a name. -/
theorem grammar_actionTexts : Grammar.grammar.Actions ActionTexts := by
  have hname : ActionTexts .methodName identifier :=
    ⟨rfl, fun _ => ⟨fun c hc => isIdentifierOther_of_first hc, fun c hc => hc⟩⟩
  have hother : ∀ a r, a ≠ .methodName → r.silent = true → ActionTexts a r :=
    fun a r ha hr => ⟨hr, fun h => absurd h ha⟩
  -- rule by rule, down to the actions
  repeat' first
    | exact hname
    | exact hother _ _ (by decide) rfl
    | exact trivial
    | apply And.intro

/-- The names of declared methods are names. -/
theorem declarations_named (text : List Char) :
    ∀ ds ∈ declarations text, ∀ d ∈ ds, IsName d.name := by
  have hkeeps : Triple Recorder.apply Recorder.apply (fun _ _ => True)
      (fun r _ => r.Named) Grammar.grammar (fun r _ => r.Named) fun r _ => r.Named := by
    refine .of_actions (grammar_actionTexts.imp fun a r' ⟨hsilent, hname⟩ => ⟨hsilent, ?_⟩)
    by_cases ha : a = .methodName
    · refine ⟨_, hname ha, fun text r _ htext hnamed => .ok (hnamed.act fun _ c hc => htext c ?_)⟩
      rwa [String.toList_ofList] at hc
    · exact ⟨_, r'.over_true, fun text r _ _ hnamed => .ok (hnamed.act fun h => absurd h ha)⟩
  have hinit : Recorder.Named {} := ⟨by simp [IsName], by simp, by simp⟩
  have hrun := hkeeps text {} {} hinit
  unfold declarations
  generalize Grammar.grammar.run Recorder.apply text {} = x at hrun
  cases hrun with
  | matched _ hnamed => exact hnamed.interfaces
  | _ => simp

/-! ## Identifiers that are hashes -/

/-- Names of one length that agree outside one word of eight characters. -/
def Near (a b : String) : Prop :=
  a.toList.length = b.toList.length ∧ ∃ i, ∀ j, j / 8 ≠ i → a.toList[j]? = b.toList[j]?

/-- Names of the same length, of up to eight characters. -/
theorem near_of_length_le {a b : String} (hlength : a.toList.length = b.toList.length)
    (hle : a.toList.length ≤ 8) : Near a b := by
  refine ⟨hlength, 0, fun j hj => ?_⟩
  have hge : 8 ≤ j := by
    by_contra hlt
    exact hj (Nat.div_eq_of_lt (by omega))
  rw [List.getElem?_eq_none (by omega), List.getElem?_eq_none (by omega)]

/-- Near names have the same hash only if they are the same. -/
theorem Near.nameHash_inj {a b : String} (h : Near a b) (ha : IsName a) (hb : IsName b) :
    nameHash a = nameHash b ↔ a = b := by
  obtain ⟨hlength, i, hagree⟩ := h
  have hlength' : (bytesOf a).length = (bytesOf b).length := by
    rw [bytesOf, bytesOf, List.length_map, List.length_map, hlength]
  have hagree' : MurmurHash.AgreeOutside i (bytesOf a) (bytesOf b) := by
    intro j hj
    rw [bytesOf, bytesOf, List.getElem?_map, List.getElem?_map, hagree j hj]
  rw [nameHash, nameHash, murmurHash64A_inj hlength' hagree']
  exact ⟨bytesOf_inj ha hb, fun h => by rw [h]⟩

/-- The methods have no decorators, and every two of them have near names. -/
def HashedApart (ds : List Declaration) : Prop :=
  ds.Pairwise fun d e => d.explicit = none ∧ e.explicit = none ∧ Near d.name e.name

/-- The names of the declarations are distinct, since the Builder refuses a second method of a name.
-/
theorem Described.declared_names_nodup {methods : List Method} {ds : List Declaration}
    (h : Described methods ds) : (ds.map Declaration.name).Nodup := by
  have hmap : methods.map Method.name = ds.map Declaration.name := by
    have hdeclares := h.declares
    clear h
    induction hdeclares with
    | nil => rfl
    | cons hd _ ih => rw [List.map_cons, List.map_cons, ih, hd.1]
  exact hmap ▸ h.names_nodup

/-- Hashes of near names that are distinct do not clash. -/
theorem HashedApart.identifiersApart {ds : List Declaration} (h : HashedApart ds)
    (hnamed : ∀ d ∈ ds, IsName d.name) (hnodup : (ds.map Declaration.name).Nodup) :
    IdentifiersApart ds := by
  rw [List.Nodup, List.pairwise_map] at hnodup
  refine (h.and hnodup).imp_of_mem fun {d e} hd he hde hclash => ?_
  obtain ⟨⟨hd', he', hnear⟩, hne⟩ := hde
  unfold Declaration.Clash at hclash
  rw [hd', he'] at hclash
  exact hne ((hnear.nameHash_inj (hnamed d hd) (hnamed e he)).mp hclash)

/-- For every accepted text, interface by interface: if the methods have no decorators, and every
two of their names have the same length and differ in one word only, the identifiers that are hashed
from the names are distinct. If, besides, no two names differ only in the case of the first letter,
the server selects exactly the method whose stub sent a message. -/
theorem hashed_identifiers_unique {filename : String} {text : List Char}
    {interfaces : List InterfaceDescription} (h : parse filename text = .ok interfaces) :
    List.Forall₂
      (fun i ds => HashedApart ds → (i.methods.map Method.identifier).Nodup ∧
        (NamesApart ds → i.toInterface.Selects))
      interfaces (declarations text) := by
  have hdescribed := parse_declarations h
  have hnamed := declarations_named text
  clear h
  generalize declarations text = dss at hdescribed hnamed ⊢
  induction hdescribed with
  | nil => exact .nil
  | @cons i ds interfaces dss hd _ ih =>
      rw [List.forall_mem_cons] at hnamed
      refine .cons (fun hapart => ?_) (ih hnamed.2)
      have hids := hapart.identifiersApart hnamed.1 hd.declared_names_nodup
      exact ⟨hd.identifiers_iff.mpr hids, fun hnames => hd.selects_iff.mpr ⟨hids, hnames⟩⟩

/-- An interface whose methods have names of four letters. -/
def fileText : String :=
  "interface File \x7b\n    open() =|\n    read() =|\n    seek() =|\n\x7d\n"

/-- The description of the interface. -/
def fileDescription : InterfaceDescription :=
  { InterfaceDescription.new "File" "file.idl" with
    methods := [⟨"open", true, nameHash "open", [], []⟩, ⟨"read", true, nameHash "read", [], []⟩,
      ⟨"seek", true, nameHash "seek", [], []⟩] }

/-- Its methods have distinct identifiers. -/
theorem hashed_identifiers_unique_file :
    parse "file.idl" fileText.toList = .ok [fileDescription] ∧
      (fileDescription.methods.map Method.identifier).Nodup := by
  have hparse : parse "file.idl" fileText.toList = .ok [fileDescription] := by decide +kernel
  have hdeclared : declarations fileText.toList =
      [[⟨"open", none⟩, ⟨"read", none⟩, ⟨"seek", none⟩]] := by decide +kernel
  have hall := hashed_identifiers_unique hparse
  rw [hdeclared] at hall
  cases hall with
  | cons hunique _ =>
      refine ⟨hparse, (hunique ?_).1⟩
      have hnear : ∀ a b : String, a.toList.length = 4 → b.toList.length = 4 → Near a b :=
        fun a b ha hb => near_of_length_le (ha.trans hb.symm) (by omega)
      simp [HashedApart, hnear]

end KushOs.Idl
