import KushOs.Kernel.Console.Sequence

/-!
# Colour attributes

The parameters of `ESC [ p1 ; … ; pk m` select colours from left to right, and each zero, written
or left out, resets both. `processAnsiSgr` takes a zero of several digits for an unknown command,
and it passes over an empty last parameter. The colours come out right exactly if such a parameter
has nothing to reset.

## Main definitions

* `ColorIndex.selected`: what a parameter is to select.
* `ColorIndex.heeded`: what it selects for the code.

## Main results

* `Console.processAnsiSgr_digits`: the colours that the code selects.
* `sgr_colors`: the sequences after which the colours are the selected ones.
-/

namespace KushOs.FbCons

open NestedCall Logging

/-! ## The last choice -/

section LastChosen

variable {α β : Type} {choose heed : α → Option β} {c d : β}

/-- The last choice that elements of a list make, or the one before. -/
def lastChosen (choose : α → Option β) (c : β) (l : List α) : β :=
  (l.filterMap choose).getLast?.getD c

theorem lastChosen_concat (choose : α → Option β) (c : β) (l : List α) (a : α) :
    lastChosen choose c (l ++ [a]) = (choose a).getD (lastChosen choose c l) := by
  rw [lastChosen, List.filterMap_append]
  cases h : choose a with
  | none => simp [h, lastChosen]
  | some b => simp [h]

/-- Choosing from left to right. -/
theorem foldl_getD (choose : α → Option β) (c : β) (l : List α) :
    l.foldl (fun c a => (choose a).getD c) c = lastChosen choose c l := by
  induction l using List.reverseRecOn with
  | nil => rfl
  | append_singleton l a ih => rw [List.foldl_concat, ih, lastChosen_concat]

/-- Where the last element stands in a split of a list. -/
theorem forall_split_concat {S : List α → α → List α → Prop} {P : List α → Prop}
    (l : List α) (a : α) :
    (∀ pre b post, l ++ [a] = pre ++ b :: post → S pre b post →
        (∀ q ∈ post, choose q = none) → P pre) ↔
      (S l a [] → P l) ∧
        (choose a = none → ∀ pre b post, l = pre ++ b :: post → S pre b (post ++ [a]) →
          (∀ q ∈ post, choose q = none) → P pre) := by
  constructor
  · intro h
    refine ⟨fun hskipped => h l a [] rfl hskipped (by simp), ?_⟩
    intro hnone pre b post hl hskipped hpost
    refine h pre b (post ++ [a]) (by rw [hl]; simp) hskipped ?_
    intro q hq
    rcases List.mem_append.mp hq with hq | hq
    · exact hpost q hq
    · rw [List.mem_singleton.mp hq, hnone]
  · rintro ⟨hlast, hbefore⟩ pre b post hl hskipped hpost
    rcases List.eq_nil_or_concat post with rfl | ⟨post, q, rfl⟩
    · -- the split is at the last element
      obtain ⟨rfl, hb⟩ := List.append_inj' hl rfl
      obtain rfl : a = b := by simpa using hb
      exact hlast hskipped
    · rw [List.concat_eq_append] at hl hskipped hpost
      rw [← List.cons_append, ← List.append_assoc] at hl
      obtain ⟨rfl, hq⟩ := List.append_inj' hl rfl
      obtain rfl : a = q := by simpa using hq
      exact hbefore (hpost a (by simp)) pre b post rfl hskipped
        fun q hq => hpost q (List.mem_append_left _ hq)

/-- Passing over some choices of `d` is harmless exactly if the last of them that no other choice
follows comes after a choice of `d`. -/
theorem lastChosen_eq_iff (hheed : ∀ a, heed a = choose a ∨ heed a = none ∧ choose a = some d)
    (l : List α) :
    lastChosen heed c l = lastChosen choose c l ↔
      ∀ pre a post, l = pre ++ a :: post → heed a ≠ choose a →
        (∀ q ∈ post, choose q = none) → lastChosen heed c pre = d := by
  induction l using List.reverseRecOn with
  | nil => simp [lastChosen]
  | append_singleton l a ih =>
      rw [lastChosen_concat, lastChosen_concat,
        forall_split_concat (S := fun _ b _ => heed b ≠ choose b)]
      rcases hheed a with heq | ⟨hnone, hsome⟩
      · cases hchoose : choose a with
        | none => simp [heq, hchoose, ih]
        | some b => simp [heq, hchoose]
      · simp [hnone, hsome]

end LastChosen

/-! ## The colours that parameters select -/

/-- `ColorIndex`. -/
inductive ColorIndex
  | foreground
  | background
  deriving DecidableEq

/-- Access to an array over `ColorIndex`. -/
def PerColor.get {α : Type} (c : PerColor α) : ColorIndex → α
  | .foreground => c.foreground
  | .background => c.background

theorem PerColor.eq_iff {α : Type} {c d : PerColor α} : c = d ↔ ∀ i, c.get i = d.get i := by
  constructor
  · rintro rfl i
    rfl
  · intro h
    cases c
    cases d
    rw [PerColor.mk.injEq]
    exact ⟨h .foreground, h .background⟩

namespace ColorIndex

/-- The palette index that a reset selects. -/
def default : ColorIndex → BitVec 8
  | .foreground => 0xF#8
  | .background => 0x0#8

/-- The command for the first colour of the palette. -/
def firstCommand : ColorIndex → ℕ
  | .foreground => 30
  | .background => 40

/-- The palette index that a command selects: eight commands for each half of the palette. -/
def ofCommand (i : ColorIndex) (n : ℕ) : Option (BitVec 8) :=
  if i.firstCommand ≤ n ∧ n ≤ i.firstCommand + 7 then
    some (BitVec.ofNat 8 (n - i.firstCommand))
  else if i.firstCommand + 60 ≤ n ∧ n ≤ i.firstCommand + 67 then
    some (BitVec.ofNat 8 (n - (i.firstCommand + 60) + 8))
  else none

theorem ofCommand_first (i : ColorIndex) {n : ℕ}
    (h : i.firstCommand ≤ n ∧ n ≤ i.firstCommand + 7) :
    i.ofCommand n = some (BitVec.ofNat 8 (n - i.firstCommand)) := if_pos h

theorem ofCommand_second (i : ColorIndex) {n : ℕ}
    (h : i.firstCommand + 60 ≤ n ∧ n ≤ i.firstCommand + 67) :
    i.ofCommand n = some (BitVec.ofNat 8 (n - (i.firstCommand + 60) + 8)) := by
  rw [ofCommand, if_neg (by omega), if_pos h]

theorem ofCommand_none (i : ColorIndex) {n : ℕ}
    (h : ¬(i.firstCommand ≤ n ∧ n ≤ i.firstCommand + 7) ∧
      ¬(i.firstCommand + 60 ≤ n ∧ n ≤ i.firstCommand + 67)) : i.ofCommand n = none := by
  rw [ofCommand, if_neg h.1, if_neg h.2]

/-- The palette index that a parameter is to select: a zero, written or left out, is a reset. -/
def selected (i : ColorIndex) (param : List (BitVec 8)) : Option (BitVec 8) :=
  if numberValue param = 0 then some i.default else i.ofCommand (numberValue param)

/-- The palette index that it selects for the code, which does not take a zero of several digits
for a reset. -/
def heeded (i : ColorIndex) (param : List (BitVec 8)) : Option (BitVec 8) :=
  if param = [] ∨ param = [ascii '0'] then some i.default else i.ofCommand (numberValue param)

/-- The only difference is that a reset may be passed over. -/
theorem heeded_cases (i : ColorIndex) (param : List (BitVec 8)) :
    i.heeded param = i.selected param ∨
      i.heeded param = none ∧ i.selected param = some i.default := by
  unfold heeded selected
  by_cases hreset : param = [] ∨ param = [ascii '0']
  · have hzero : numberValue param = 0 := by
      rcases hreset with rfl | rfl <;> decide
    rw [if_pos hreset, if_pos hzero]
    exact .inl rfl
  · rw [if_neg hreset]
    by_cases hzero : numberValue param = 0
    · rw [if_pos hzero, hzero]
      exact .inr ⟨by cases i <;> rfl, rfl⟩
    · rw [if_neg hzero]
      exact .inl rfl

end ColorIndex

/-- Both colours, changed where there is a choice. -/
def PerColor.update (c : PerColor (BitVec 8)) (choice : ColorIndex → Option (BitVec 8)) :
    PerColor (BitVec 8) where
  foreground := (choice .foreground).getD c.foreground
  background := (choice .background).getD c.background

theorem PerColor.get_update (c : PerColor (BitVec 8)) (choice : ColorIndex → Option (BitVec 8))
    (i : ColorIndex) : (c.update choice).get i = (choice i).getD (c.get i) := by
  cases i <;> rfl

/-- A fold over choices of both colours, seen for one of them. -/
theorem PerColor.get_foldl_update (c : PerColor (BitVec 8))
    (choice : ColorIndex → List (BitVec 8) → Option (BitVec 8))
    (params : List (List (BitVec 8))) (i : ColorIndex) :
    (params.foldl (fun c param => c.update (choice · param)) c).get i =
      lastChosen (choice i) (c.get i) params := by
  rw [← foldl_getD]
  induction params generalizing c with
  | nil => rfl
  | cons param params ih => rw [List.foldl_cons, ih, PerColor.get_update, List.foldl_cons]

/-- What a parameter is to make of the colours. -/
def PerColor.select (c : PerColor (BitVec 8)) (param : List (BitVec 8)) : PerColor (BitVec 8) :=
  c.update (·.selected param)

/-- What it makes of them. -/
def PerColor.heed (c : PerColor (BitVec 8)) (param : List (BitVec 8)) : PerColor (BitVec 8) :=
  c.update (·.heeded param)

/-- The ranges of commands. -/
theorem sgrColors_eq {n : ℕ} (hn : n < 10 ^ 8) (c : PerColor (BitVec 8)) :
    sgrColors (BitVec.ofNat 32 n) c = c.update (·.ofCommand n) := by
  have hval : (BitVec.ofNat 32 n).toNat = n := by
    rw [BitVec.toNat_ofNat]
    omega
  have hsub : ∀ k ≤ n, (BitVec.ofNat 32 n - BitVec.ofNat 32 k).setWidth 8 =
      BitVec.ofNat 8 (n - k) := by
    intro k hk
    have hk' : (BitVec.ofNat 32 k).toNat = k := by
      rw [BitVec.toNat_ofNat]
      omega
    apply BitVec.eq_of_toNat_eq
    rw [BitVec.toNat_setWidth, BitVec.toNat_sub, hval, hk', BitVec.toNat_ofNat]
    omega
  have hsubAdd : ∀ k ≤ n, (BitVec.ofNat 32 n - BitVec.ofNat 32 k + 8).setWidth 8 =
      BitVec.ofNat 8 (n - k + 8) := by
    intro k hk
    rw [BitVec.setWidth_add _ _ (by omega), hsub k hk, BitVec.ofNat_add]
    rfl
  simp only [sgrColors, BitVec.le_def, hval, BitVec.reduceToNat, BitVec.ofNat_eq_ofNat,
    PerColor.update]
  -- no two ranges overlap, and each selects one colour
  rcases (by omega : (30 ≤ n ∧ n ≤ 37) ∨ (40 ≤ n ∧ n ≤ 47) ∨ (90 ≤ n ∧ n ≤ 97) ∨
      (100 ≤ n ∧ n ≤ 107) ∨ (¬(30 ≤ n ∧ n ≤ 37) ∧ ¬(40 ≤ n ∧ n ≤ 47) ∧ ¬(90 ≤ n ∧ n ≤ 97) ∧
      ¬(100 ≤ n ∧ n ≤ 107))) with h | h | h | h | ⟨h30, h40, h90, h100⟩
  · rw [if_neg (by omega), if_neg (by omega), if_pos h,
      ColorIndex.foreground.ofCommand_first h,
      ColorIndex.background.ofCommand_none (by simp only [ColorIndex.firstCommand]; omega)]
    exact congrArg (PerColor.mk · _) (hsub 30 h.1)
  · rw [if_neg (by omega), if_neg (by omega), if_neg (by omega), if_pos h,
      ColorIndex.foreground.ofCommand_none (by simp only [ColorIndex.firstCommand]; omega),
      ColorIndex.background.ofCommand_first h]
    exact congrArg (PerColor.mk _) (hsub 40 h.1)
  · rw [if_pos h, if_neg (by omega), if_neg (by omega),
      ColorIndex.foreground.ofCommand_second h,
      ColorIndex.background.ofCommand_none (by simp only [ColorIndex.firstCommand]; omega)]
    exact congrArg (PerColor.mk · _) (hsubAdd 90 h.1)
  · rw [if_neg (by omega), if_pos h, if_neg (by omega), if_neg (by omega),
      ColorIndex.foreground.ofCommand_none (by simp only [ColorIndex.firstCommand]; omega),
      ColorIndex.background.ofCommand_second h]
    exact congrArg (PerColor.mk _) (hsubAdd 100 h.1)
  · rw [if_neg h90, if_neg h100, if_neg h30, if_neg h40,
      ColorIndex.foreground.ofCommand_none ⟨h30, h90⟩,
      ColorIndex.background.ofCommand_none ⟨h40, h100⟩]
    rfl

namespace Console

variable (fb : Framebuffer) {g : Logger} {vsnprintf : Printf} {s t : Console}

/-- One attribute. -/
theorem sgrAttribute_eq (s : Console) {number : List (BitVec 8)} (h : Fits number) :
    s.sgrAttribute number = .ok { s with colorIndices := s.colorIndices.heed number } := by
  by_cases hreset : number = [] ∨ number = [ascii '0']
  · have hheeded : ∀ i : ColorIndex, i.heeded number = some i.default := fun i => if_pos hreset
    rw [sgrAttribute, if_pos hreset, PerColor.heed]
    simp only [hheeded]
    rfl
  · have hheeded : ∀ i : ColorIndex, i.heeded number = i.ofCommand (numberValue number) :=
      fun i => if_neg hreset
    rw [sgrAttribute, if_neg hreset, strToInt_of_fits h, PerColor.heed]
    simp only [hheeded, ← sgrColors_eq (numberValue_lt h.1)]
    rfl

/-- The attributes of a sequence: an empty one at its end is passed over. -/
theorem useNumbers_sgr (s : Console) {init : List (List (BitVec 8))} {final : List (BitVec 8)}
    (hfits : ∀ number ∈ init ++ [final], Fits number) :
    useNumbers sgrAttribute
        (fun s number => do
          let s ← if number ≠ [] then s.sgrAttribute number else .ok s
          return s.updateColors fb)
        s (init ++ [final]) =
      .ok (updateColors fb { s with
        colorIndices :=
          (if final = [] then init else init ++ [final]).foldl PerColor.heed s.colorIndices }) := by
  induction init generalizing s with
  | nil =>
      -- the code after the loop uses the last number only if it is not empty
      have hfinal := hfits final (by simp)
      rw [List.nil_append, useNumbers, if_pos hfinal.1]
      by_cases hempty : final = []
      · rw [if_neg (not_not.mpr hempty), if_pos hempty]
        rfl
      · rw [if_pos hempty, if_neg hempty, s.sgrAttribute_eq hfinal]
        rfl
  | cons number init ih =>
      have hnumber := hfits number (by simp)
      obtain ⟨next, rest, hrest⟩ : ∃ next rest, init ++ [final] = next :: rest :=
        List.exists_cons_of_ne_nil (by simp)
      have hnext := ih { s with colorIndices := s.colorIndices.heed number }
        fun q hq => hfits q (List.mem_cons_of_mem _ hq)
      rw [hrest] at hnext
      rw [List.cons_append, hrest, useNumbers, if_pos hnumber.1, s.sgrAttribute_eq hnumber]
      show useNumbers _ _ _ (next :: rest) = _
      rw [hnext, ← hrest]
      split <;> rfl

/-- A sequence without parameter bytes has one parameter, the empty one. -/
theorem parameterBytes_eq_nil {init : List (List (BitVec 8))} {final : List (BitVec 8)} :
    parameterBytes (init ++ [final]) = [] ↔ init = [] ∧ final = [] := by
  cases init with
  | nil => simp [parameterBytes]
  | cons param init =>
      rw [parameterBytes, List.cons_append, List.intercalate_cons_of_ne_nil (by simp)]
      simp

/-- The parameters that the code takes notice of: not an empty one at the end, unless it is the
only one. -/
def noticed (init : List (List (BitVec 8))) (final : List (BitVec 8)) : List (List (BitVec 8)) :=
  if init ≠ [] ∧ final = [] then init else init ++ [final]

/-- What the code makes of the parameters. -/
theorem processAnsiSgr_digits (hroom : s.ansiBufUsed < kAnsiBufSize)
    {init : List (List (BitVec 8))} {final : List (BitVec 8)}
    (hparams : ∀ param ∈ init ++ [final], ShortDigits param)
    (hpending : s.pending = parameterBytes (init ++ [final])) :
    ∃ t, (s.completed (ascii 'm')).processAnsiSgr fb = .ok t ∧ SameScreen s t ∧
      t.colors = (t.updateColors fb).colors ∧
      t.colorIndices = (noticed init final).foldl PerColor.heed s.colorIndices := by
  have hlength : s.pending.length = s.ansiBufUsed := by
    rw [pending, List.length_take, Vector.length_toList]
    exact Nat.min_eq_left hroom.le
  by_cases hused : s.ansiBufUsed = 0
  · -- the sequence is its final byte
    obtain ⟨rfl, rfl⟩ : init = [] ∧ final = [] := by
      rw [← parameterBytes_eq_nil, ← hpending, ← List.length_eq_zero_iff, hlength, hused]
    have hone : (s.completed (ascii 'm')).ansiBufUsed = 1 := by
      show s.ansiBufUsed + 1 = 1
      rw [hused]
    refine ⟨updateColors fb { s.completed (ascii 'm') with
      colorIndices := s.colorIndices.heed [] }, ?_, ⟨rfl, rfl, rfl, rfl⟩, rfl, rfl⟩
    rw [processAnsiSgr, if_pos hone, sgrAttribute_eq _ (by decide)]
    rfl
  · have hnot : ¬(init = [] ∧ final = []) := by
      rw [← parameterBytes_eq_nil, ← hpending, ← List.length_eq_zero_iff, hlength]
      exact hused
    have hnoticed : noticed init final = if final = [] then init else init ++ [final] := by
      unfold noticed
      congr 1
      rw [eq_iff_iff]
      tauto
    refine ⟨updateColors fb { (s.completed (ascii 'm')).terminate with
      colorIndices := (noticed init final).foldl PerColor.heed s.colorIndices }, ?_,
      ⟨rfl, rfl, rfl, rfl⟩, rfl, rfl⟩
    rw [processAnsiSgr_eq fb hroom hused, hpending, numbers_parameterBytes (by simp) hparams,
      hnoticed]
    exact useNumbers_sgr fb _ fun number hnumber => (hparams number hnumber).fits

/-- A colour sequence from the introducer to the final byte. -/
def sgrSequence (params : List (List (BitVec 8))) : List (BitVec 8) :=
  [ascii '\x1b', ascii '['] ++ parameterBytes params ++ [ascii 'm']

/-- What the code makes of a colour sequence. -/
theorem writeString_sgr (g : Logger) (vsnprintf : Printf) (hidle : s.writeState = .idle)
    {init : List (List (BitVec 8))} {final : List (BitVec 8)}
    (hparams : ∀ param ∈ init ++ [final], ShortDigits param)
    (hroom : (parameterBytes (init ++ [final])).length < kAnsiBufSize) :
    ∃ t, (∀ depth, s.writeString fb g vsnprintf (depth + 1) (sgrSequence (init ++ [final])) =
        .returned t) ∧
      SameScreen s t ∧ t.writeState = .idle ∧ t.colors = (t.updateColors fb).colors ∧
      t.colorIndices = (noticed init final).foldl PerColor.heed s.colorIndices := by
  obtain ⟨hsame, hstate, hindices, -, hused, hpending⟩ := s.beforeFinal_fields hroom
  have hbytes : ∀ ch ∈ parameterBytes (init ++ [final]), isFinalByte ch = false :=
    forall_parameterBytes hparams (by decide) (by decide)
  have hroom' : (s.beforeFinal (parameterBytes (init ++ [final]))).ansiBufUsed < kAnsiBufSize := by
    rw [hused]
    exact hroom
  obtain ⟨t, hsgr, hscreen, hcolors, hheed⟩ := processAnsiSgr_digits fb hroom' hparams hpending
  -- the machine is idle again when the handler has returned
  refine ⟨{ t with writeState := .idle }, fun depth => ?_, ⟨?_, ?_, ?_, ?_⟩, rfl, hcolors, ?_⟩
  · rw [sgrSequence, writeString_sequence fb hidle hroom hbytes,
      write_completing fb g hstate hroom' (by decide), processAnsi_eq fb g _ hroom', if_pos rfl,
      hsgr]
    rfl
  · exact hscreen.stores.trans hsame.stores
  · exact hscreen.logged.trans hsame.logged
  · exact hscreen.cursorCol.trans hsame.cursorCol
  · exact hscreen.cursorRow.trans hsame.cursorRow
  · exact hheed.trans (by rw [hindices])

/-! ## The selected colours -/

/-- Among digits, the resets that the code passes over are the zeros of several digits. -/
theorem heeded_ne_iff (i : ColorIndex) {param : List (BitVec 8)} (hparam : ShortDigits param) :
    i.heeded param ≠ i.selected param ↔ numberValue param = 0 ∧ 2 ≤ param.length := by
  constructor
  · intro hne
    have hzero : numberValue param = 0 := by
      by_contra hpositive
      refine hne ?_
      have hnot : ¬(param = [] ∨ param = [ascii '0']) := by
        rintro (rfl | rfl) <;> exact hpositive (by decide)
      rw [ColorIndex.heeded, ColorIndex.selected, if_neg hnot, if_neg hpositive]
    refine ⟨hzero, ?_⟩
    by_contra hshort
    refine hne ?_
    have hreset : param = [] ∨ param = [ascii '0'] := by
      -- there are ten digits to try
      have hone : ∀ ch, isDigit ch = true → numberValue [ch] = 0 → [ch] = [ascii '0'] := by
        decide
      rcases param with _ | ⟨ch, _ | ⟨ch', rest⟩⟩
      · exact .inl rfl
      · exact .inr (hone ch (hparam.2 ch (by simp)) hzero)
      · exact absurd (by simp) hshort
    rw [ColorIndex.heeded, ColorIndex.selected, if_pos hreset, if_pos hzero]
  · rintro ⟨hzero, hlength⟩ heq
    have hnot : ¬(param = [] ∨ param = [ascii '0']) := by
      rintro (rfl | rfl) <;> exact absurd hlength (by decide)
    rw [ColorIndex.heeded, ColorIndex.selected, if_neg hnot, if_pos hzero, hzero] at heq
    cases i <;> cases heq

/-- A sequence is processed: the colours are those that its parameters select from left to right,
and beside them and the machine nothing changes. -/
def SelectsColors (g : Logger) (vsnprintf : Printf) (s : Console)
    (params : List (List (BitVec 8))) : Prop :=
  ∃ t, (∀ depth, s.writeString fb g vsnprintf (depth + 1) (sgrSequence params) = .returned t) ∧
    SameScreen s t ∧ t.writeState = .idle ∧ t.colors = (t.updateColors fb).colors ∧
    t.colorIndices = params.foldl PerColor.select s.colorIndices

/-- A parameter that is to reset the colours and that the code passes over: a zero of several
digits, or an empty parameter at the end. -/
def Overlooked (pre : List (List (BitVec 8))) (param : List (BitVec 8))
    (post : List (List (BitVec 8))) : Prop :=
  numberValue param = 0 ∧ (2 ≤ param.length ∨ param = [] ∧ pre ≠ [] ∧ post = [])

/-- Every parameter that the code overlooks has nothing to reset: for each of the two colours,
either a later parameter selects one, or the last one before it, if there was any, or else the
previous one, is the default. -/
def NothingToReset (s : Console) (params : List (List (BitVec 8))) : Prop :=
  ∀ (i : ColorIndex) (pre : List (List (BitVec 8))) (param : List (BitVec 8))
    (post : List (List (BitVec 8))), params = pre ++ param :: post → Overlooked pre param post →
    (∀ q ∈ post, i.selected q = none) →
    lastChosen i.heeded (s.colorIndices.get i) pre = i.default

/-- One of the two colours. -/
theorem lastChosen_noticed_iff (i : ColorIndex) (c : BitVec 8) {init : List (List (BitVec 8))}
    {final : List (BitVec 8)} (hparams : ∀ param ∈ init ++ [final], ShortDigits param) :
    lastChosen i.heeded c (noticed init final) = lastChosen i.selected c (init ++ [final]) ↔
      ∀ pre param post, init ++ [final] = pre ++ param :: post → Overlooked pre param post →
        (∀ q ∈ post, i.selected q = none) → lastChosen i.heeded c pre = i.default := by
  have hinit : lastChosen i.heeded c init = lastChosen i.selected c init ↔
      ∀ pre param post, init = pre ++ param :: post → Overlooked pre param (post ++ [final]) →
        (∀ q ∈ post, i.selected q = none) → lastChosen i.heeded c pre = i.default := by
    rw [lastChosen_eq_iff i.heeded_cases]
    refine forall_congr' fun pre => forall_congr' fun param => forall_congr' fun post => ?_
    refine forall_congr' fun hl => imp_congr ?_ Iff.rfl
    rw [heeded_ne_iff i (hparams param (by simp [hl]))]
    simp [Overlooked]
  rw [forall_split_concat (S := Overlooked), ← hinit, lastChosen_concat]
  have hfinal := heeded_ne_iff i (hparams final (by simp))
  by_cases hempty : init ≠ [] ∧ final = []
  · -- the last parameter is left out and passed over
    obtain ⟨hne, rfl⟩ := hempty
    have hselected : i.selected [] = some i.default := rfl
    have hoverlooked : Overlooked init [] [] := ⟨rfl, .inr ⟨rfl, hne, rfl⟩⟩
    rw [noticed, if_pos ⟨hne, rfl⟩, hselected]
    simp [hoverlooked]
  · have hoverlooked : Overlooked init final [] ↔ i.heeded final ≠ i.selected final := by
      rw [hfinal]
      simp only [Overlooked, and_true]
      tauto
    rw [noticed, if_neg hempty, lastChosen_concat, hoverlooked]
    rcases i.heeded_cases final with heq | ⟨hnone, hsome⟩
    · cases hselected : i.selected final with
      | none => simp [heq, hselected]
      | some b => simp [heq, hselected]
    · simp [hnone, hsome]

end Console

open Console

/-- For every state outside escape sequences and every sequence that fits: the colours are those
that the parameters select from left to right exactly if every zero that the code overlooks has
nothing to reset. -/
theorem sgr_colors (fb : Framebuffer) (g : Logger) (vsnprintf : Printf) {s : Console}
    (hidle : s.writeState = .idle) {params : List (List (BitVec 8))} (hne : params ≠ [])
    (hparams : ∀ param ∈ params, ShortDigits param)
    (hroom : (parameterBytes params).length < kAnsiBufSize) :
    SelectsColors fb g vsnprintf s params ↔ NothingToReset s params := by
  obtain ⟨init, final, rfl⟩ := List.eq_nil_or_concat' params |>.resolve_left hne
  obtain ⟨t, hwrite, hsame, hstate, hcolors, hheed⟩ :=
    writeString_sgr fb g vsnprintf hidle hparams hroom
  have hselects : SelectsColors fb g vsnprintf s (init ++ [final]) ↔
      (noticed init final).foldl PerColor.heed s.colorIndices =
        (init ++ [final]).foldl PerColor.select s.colorIndices := by
    constructor
    · rintro ⟨u, hu, -, -, -, hselect⟩
      obtain rfl : t = u := Outcome.returned.inj ((hwrite 0).symm.trans (hu 0))
      rw [← hheed, hselect]
    · intro heq
      exact ⟨t, hwrite, hsame, hstate, hcolors, hheed.trans heq⟩
  rw [hselects, PerColor.eq_iff]
  refine forall_congr' fun i => ?_
  rw [← lastChosen_noticed_iff i _ hparams]
  exact Eq.congr (PerColor.get_foldl_update _ _ _ i) (PerColor.get_foldl_update _ _ _ i)

/-- The sequence `ESC [ 31 m` on a new console. -/
theorem sgr_colors_red :
    SelectsColors smallScreen {} printf (Console.new smallScreen) [[ascii '3', ascii '1']] := by
  have hparams : ∀ param ∈ [[ascii '3', ascii '1']], ShortDigits param := by
    simpa [ShortDigits] using (by decide : isDigit (ascii '3') = true ∧ isDigit (ascii '1') = true)
  refine (sgr_colors smallScreen {} printf rfl (by decide) hparams (by decide)).mpr ?_
  intro i pre param post hsplit hoverlooked
  have hmem : param ∈ [[ascii '3', ascii '1']] := by
    rw [hsplit]
    simp
  rw [List.mem_singleton.mp hmem] at hoverlooked
  exact absurd hoverlooked.1 (by decide)

/-- The sequence `ESC [ 31 ; m` leaves the foreground red, although its last parameter is left
out and so stands for a reset. -/
theorem sgr_not_colors :
    ¬SelectsColors smallScreen {} printf (Console.new smallScreen)
      [[ascii '3', ascii '1'], []] := by
  rintro ⟨t, hwrite, -, -, -, hselect⟩
  have hparams : ∀ param ∈ [[ascii '3', ascii '1']] ++ [[]], ShortDigits param := by
    simpa [ShortDigits] using (by decide : isDigit (ascii '3') = true ∧ isDigit (ascii '1') = true)
  obtain ⟨u, hwrite', -, -, -, hheed⟩ :=
    writeString_sgr smallScreen {} printf (s := Console.new smallScreen) rfl hparams (by decide)
  obtain rfl : t = u := Outcome.returned.inj ((hwrite 0).symm.trans (hwrite' 0))
  have hred : t.colorIndices = ⟨1#8, 0#8⟩ := hheed.trans (by decide)
  have hreset : t.colorIndices = ⟨0xF#8, 0#8⟩ := hselect.trans (by decide)
  exact absurd (hred.symm.trans hreset) (by decide)

end KushOs.FbCons
