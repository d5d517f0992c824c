import KushOs.Kernel.Console.Log
import Mathlib.Data.BitVec

/-!
# The framebuffer console

`Platform::Shared::FbCons::Console` prints characters on a bitmap framebuffer and interprets a few
ANSI escape sequences. It is the sink of the platform's console, so the warning that it logs about
an escape sequence that it does not know comes back to it as characters.

What it stores to the framebuffer is recorded in order (`FbWrite`), so that the places of the
stores can be spoken about; the content of the screen follows from the record.

## Main definitions

* `Framebuffer`: what the constructor is given. `Console`: the state.
* `Console.print`, `Console.drawChar`, `Console.newLine`: the drawing code.
* `Console.processAnsi`: the escape sequences.
* `Console.write`: one character, with a bound on how deeply such calls nest.
-/

namespace KushOs.FbCons

open NestedCall Logging

/-! ## Fonts, colours and the framebuffer -/

/-- `BitmapFont`. -/
structure BitmapFont where
  /-- Width of each character, in pixels. -/
  width : ℕ
  /-- Height of each character, in pixels. -/
  height : ℕ
  /-- Bytes between glyphs in the data array. -/
  stride : ℕ
  /-- Maximum glyph value. -/
  maxGlyph : ℕ
  /-- Character data. -/
  data : Array (BitVec 8)

/-- `ColorOrder`. -/
inductive ColorOrder
  | rgba
  | argb
  deriving DecidableEq, Repr

/-- `Color`; the alpha channel of every palette entry is the default. -/
structure Color where
  r : BitVec 8
  g : BitVec 8
  b : BitVec 8
  a : BitVec 8 := 0xFF#8

/-- `Color::convert`: the pixel value of a colour. -/
def Color.convert (c : Color) : ColorOrder → BitVec 32
  | .rgba => c.r ++ c.g ++ c.b ++ c.a
  | .argb => c.a ++ c.r ++ c.g ++ c.b

/-- `palette`, with its `kColorPaletteEntries` entries. -/
def palette : Vector Color 16 :=
  #v[⟨0, 0, 0, 0xFF⟩, ⟨205, 49, 49, 0xFF⟩, ⟨13, 188, 121, 0xFF⟩, ⟨229, 229, 16, 0xFF⟩,
    ⟨36, 114, 200, 0xFF⟩, ⟨188, 63, 188, 0xFF⟩, ⟨17, 168, 205, 0xFF⟩, ⟨229, 229, 229, 0xFF⟩,
    ⟨102, 102, 102, 0xFF⟩, ⟨241, 76, 76, 0xFF⟩, ⟨35, 209, 139, 0xFF⟩, ⟨245, 245, 67, 0xFF⟩,
    ⟨59, 142, 234, 0xFF⟩, ⟨214, 112, 214, 0xFF⟩, ⟨41, 184, 219, 0xFF⟩, ⟨229, 229, 229, 0xFF⟩]

/-- A value for the foreground and one for the background: an array over `ColorIndex`. -/
structure PerColor (α : Type) where
  foreground : α
  background : α
  deriving DecidableEq

/-- What the constructor is given; none of it changes afterwards. The sizes are of type `size_t`,
and the bytes of the font's glyph table are left open. -/
structure Framebuffer where
  /-- Address of the first pixel. -/
  buffer : BitVec 64
  /-- Pixel layout. -/
  bufferFormat : ColorOrder
  /-- `bufferSize[Width]`, in pixels. -/
  width : ℕ
  /-- `bufferSize[Height]`, in pixels. -/
  height : ℕ
  /-- Bytes between rows; 0 for rows without a gap. -/
  stride : ℕ
  /-- The bytes of `kFontDataBizcat`. -/
  kFontDataBizcat : Vector (BitVec 8) 4096
  width_lt : width < 2 ^ 64
  height_lt : height < 2 ^ 64

namespace Framebuffer

variable (fb : Framebuffer)

/-- `gFonts[0]`. -/
def font : BitmapFont where
  width := 8
  height := 16
  stride := 16
  maxGlyph := 0xFF
  data := fb.kFontDataBizcat.toArray

/-- `bufferStride`. -/
def bufferStride : ℕ := if fb.stride = 0 then fb.width * 4 % 2 ^ 64 else fb.stride

/-- `bufferChars[Width]`: character columns. -/
def charColumns : ℕ := fb.width / fb.font.width

/-- `bufferChars[Height]`: character rows. -/
def charRows : ℕ := fb.height / fb.font.height

end Framebuffer

/-- One access to the framebuffer: a pixel is stored, or `memcpy` moves a block. -/
inductive FbWrite
  | pixel (addr : BitVec 64) (value : BitVec 32)
  | copy (dst src length : BitVec 64)
  deriving DecidableEq

/-- Subtraction of type `size_t`. -/
def sizeSub (a b : ℕ) : ℕ := (a + (2 ^ 64 - b)) % 2 ^ 64

/-- `memcpy` of `Runtime/String.cpp`: it refuses blocks that overlap. -/
def memcpy (dst src length : BitVec 64) : Except Fault (List FbWrite) :=
  if length = 0 ∨ dst = src then .ok []
  else if (dst < src ∧ src < dst + length) ∨ (src < dst ∧ dst < src + length) then .error .panic
  else .ok [.copy dst src length]

/-! ## The state -/

/-- `kScrollAmount`: character rows to scroll at a time. -/
def kScrollAmount : ℕ := 5

/-- `kAnsiBufSize`. -/
def kAnsiBufSize : ℕ := 32

/-- `WriteState`. -/
inductive WriteState
  | idle
  | ansiEscapeStart
  | ansiReadingCSI
  deriving DecidableEq, Repr

/-- The fields of `Console` that change. -/
structure Console where
  /-- `colorIndices`. -/
  colorIndices : PerColor (BitVec 8)
  /-- `colors`. -/
  colors : PerColor (BitVec 32)
  /-- `cursorPos[0]`. -/
  cursorCol : ℕ
  /-- `cursorPos[1]`. -/
  cursorRow : ℕ
  /-- `writeState`. -/
  writeState : WriteState
  /-- `ansiBufUsed`. -/
  ansiBufUsed : ℕ
  /-- `ansiBuf`. -/
  ansiBuf : Vector (BitVec 8) kAnsiBufSize
  /-- What has been stored to the framebuffer, in order. -/
  stores : List FbWrite
  /-- Not a field of the class: the characters of log messages that were written to the console,
  each with the state in which the machine took it. -/
  logged : List (WriteState × BitVec 8)
  deriving DecidableEq

/-! ## Drawing -/

/-- The loop over a row of pixels that `clear` and `newLine` fill with one colour. -/
def fillRow (value : BitVec 32) : ℕ → BitVec 64 → List FbWrite
  | 0, _ => []
  | n + 1, rowPtr => .pixel rowPtr value :: fillRow value n (rowPtr + 4)

/-- The loop over `rows` rows of `width` pixels. -/
def fillRows (value : BitVec 32) (width stride : ℕ) : ℕ → BitVec 64 → List FbWrite
  | 0, _ => []
  | rows + 1, ptr =>
      fillRow value width ptr ++ fillRows value width stride rows (ptr + BitVec.ofNat 64 stride)

/-- The inner loop of `drawChar`: the pixels of one row from column `x` on, and where it leaves
the pointer into the font's data. -/
def drawRow (font : BitmapFont) (colors : PerColor (BitVec 32)) :
    ℕ → ℕ → BitVec 64 → ℕ → Except Fault (List FbWrite × ℕ)
  | 0, _, _, fontData => .ok ([], fontData)
  | n + 1, x, rowPtr, fontData => do
      let some byte := font.data[fontData]? | .error .overrun
      let value := if byte.getLsbD (x % 8) then colors.foreground else colors.background
      let next := if x ≠ 0 ∧ x % 8 = 0 then fontData + 1 else fontData
      let (rest, fontData) ← drawRow font colors n (x + 1) (rowPtr + 4) next
      return (.pixel rowPtr value :: rest, fontData)

/-- The outer loop of `drawChar`. -/
def drawRows (font : BitmapFont) (colors : PerColor (BitVec 32)) (stride : ℕ) :
    ℕ → BitVec 64 → ℕ → Except Fault (List FbWrite)
  | 0, _, _ => .ok []
  | n + 1, ptr, fontData => do
      let (row, fontData) ← drawRow font colors font.width 0 ptr fontData
      let rest ← drawRows font colors stride n (ptr + BitVec.ofNat 64 stride) (fontData + 1)
      return row ++ rest

namespace Console

variable (fb : Framebuffer) (s : Console)

/-- `Console::updateColors`. -/
def updateColors : Console :=
  let color (index : BitVec 8) : BitVec 32 :=
    (palette.get ⟨index.toNat % 16, Nat.mod_lt _ (by decide)⟩).convert fb.bufferFormat
  { s with
    colors :=
      { foreground := color s.colorIndices.foreground
        background := color s.colorIndices.background } }

/-- `Console::clear`. -/
def clear : Console :=
  { s with
    stores := s.stores ++
      fillRows s.colors.background fb.width fb.bufferStride fb.height fb.buffer }

/-- The constructor. The buffer of escape sequences is not initialised; it is cleared when a
sequence starts. -/
def new : Console :=
  let s : Console :=
    { colorIndices := { foreground := 0xF#8, background := 0x0#8 }
      colors := { foreground := 0#32, background := 0#32 }
      cursorCol := 0
      cursorRow := 0
      writeState := .idle
      ansiBufUsed := 0
      ansiBuf := Vector.replicate kAnsiBufSize 0#8
      stores := []
      logged := [] }
  (s.updateColors fb).clear fb

/-- `Console::drawChar`: `x` and `y` are counted in characters. -/
def drawChar (ch : BitVec 8) (x y : ℕ) : Except Fault Console := do
  let fontData := (ch.signExtend 64).toNat * fb.font.stride
  let yOff := BitVec.ofNat 64 (fb.font.height * y * fb.bufferStride)
  let ptr := fb.buffer + BitVec.ofNat 64 (4 * (x * fb.font.width)) + yOff
  let pixels ← drawRows fb.font s.colors fb.bufferStride fb.font.height ptr fontData
  return { s with stores := s.stores ++ pixels }

/-- `Console::newLine`: the next line, scrolling the screen when the cursor was on the last. -/
def newLine : Except Fault Console := do
  let s := { s with cursorCol := 0, cursorRow := (s.cursorRow + 1) % 2 ^ 64 }
  if s.cursorRow = fb.charRows then
    let yOff := BitVec.ofNat 64 (fb.font.height * kScrollAmount * fb.bufferStride)
    let toMove := BitVec.ofNat 64
      (fb.bufferStride * sizeSub fb.charRows kScrollAmount * fb.font.height)
    let moved ← memcpy fb.buffer (fb.buffer + yOff) toMove
    -- the newly uncovered area
    let cleared := fillRows s.colors.background fb.width fb.bufferStride
      (kScrollAmount * fb.font.height) (fb.buffer + toMove)
    return { s with
      stores := s.stores ++ moved ++ cleared
      cursorRow := sizeSub s.cursorRow kScrollAmount }
  else return s

/-- `Console::print`. The comparison with `maxGlyph` extends the sign of the character. -/
def print (ch : BitVec 8) : Except Fault Console := do
  if ch = ascii '\n' then s.newLine fb
  else
    let glyph := if (ch.signExtend 64).toNat > fb.font.maxGlyph then ascii '?' else ch
    let s ← s.drawChar fb glyph s.cursorCol s.cursorRow
    let s := { s with cursorCol := (s.cursorCol + 1) % 2 ^ 64 }
    if s.cursorCol = fb.charColumns then s.newLine fb else return s

end Console

/-! ## Escape sequences -/

/-- `IsDigit`. -/
def isDigit (ch : BitVec 8) : Bool := (ascii '0').toInt ≤ ch.toInt ∧ ch.toInt ≤ (ascii '9').toInt

/-- The loop of `StrToInt`, over the bytes up to the end of the array. -/
def strToIntLoop (i : BitVec 32) : List (BitVec 8) → Except Fault (BitVec 32)
  | [] => .error .overrun
  | ch :: rest =>
      if isDigit ch then strToIntLoop (i * 10 + (ch.setWidth 32 - (ascii '0').setWidth 32)) rest
      else .ok i

/-- `StrToInt`. -/
def strToInt (str : List (BitVec 8)) : Except Fault (BitVec 32) := strToIntLoop 0 str

/-- The size of the array `number` in the handlers of escape sequences. -/
def numberSize : ℕ := 8

/-- The array `number` when the characters `digits` have been stored and the rest is zero. -/
def numberArray (digits : List (BitVec 8)) : List (BitVec 8) :=
  digits ++ List.replicate (numberSize - digits.length) 0#8

/-- The loop of the handlers over the parameters of a sequence: each number that a semicolon ends
is passed to `use`; what follows the last semicolon is returned. -/
def scanNumbers {σ : Type} (use : σ → List (BitVec 8) → Except Fault σ) (s : σ)
    (number : List (BitVec 8)) : List (BitVec 8) → Except Fault (σ × List (BitVec 8))
  | [] => .error .overrun
  | ch :: rest =>
      if ch = 0#8 then .ok (s, number)
      else if ch = ascii ';' then do scanNumbers use (← use s number) [] rest
      else if number.length < numberSize then scanNumbers use s (number ++ [ch]) rest
      else .error .overrun

/-- The bytes up to the terminator, as the formatter reads them. -/
def cString : List (BitVec 8) → Except Fault (List (BitVec 8))
  | [] => .error .overrun
  | ch :: rest => if ch = 0#8 then .ok [] else do return ch :: (← cString rest)

/-- The colours that the command of an attribute selects: two comparisons for the first set of
colours, and two for the second. -/
def sgrColors (cmd : BitVec 32) (c : PerColor (BitVec 8)) : PerColor (BitVec 8) :=
  let c :=
    if 30 ≤ cmd ∧ cmd ≤ 37 then { c with foreground := (cmd - 30).setWidth 8 }
    else if 40 ≤ cmd ∧ cmd ≤ 47 then { c with background := (cmd - 40).setWidth 8 }
    else c
  if 90 ≤ cmd ∧ cmd ≤ 97 then { c with foreground := (cmd - 90 + 8).setWidth 8 }
  else if 100 ≤ cmd ∧ cmd ≤ 107 then { c with background := (cmd - 100 + 8).setWidth 8 }
  else c

namespace Console

variable (fb : Framebuffer) (s : Console)

/-- `Console::processAnsiSgr(str, len)`: one attribute. -/
def sgrAttribute (s : Console) (number : List (BitVec 8)) : Except Fault Console :=
  if number = [] ∨ number = [ascii '0'] then
    .ok { s with colorIndices := { foreground := 0xF#8, background := 0x0#8 } }
  else do
    let cmd ← strToInt (numberArray number)
    return { s with colorIndices := sgrColors cmd s.colorIndices }

/-- The final byte is overwritten with a terminator. -/
def terminate (s : Console) : Console :=
  { s with ansiBuf := s.ansiBuf.setIfInBounds (s.ansiBufUsed - 1) 0#8 }

/-- `Console::processAnsiSgr`. -/
def processAnsiSgr : Except Fault Console := do
  if s.ansiBufUsed = 1 then
    return (← s.sgrAttribute []).updateColors fb
  else
    let s := s.terminate
    let (s, number) ← scanNumbers sgrAttribute s [] s.ansiBuf.toList
    let s ← if number ≠ [] then s.sgrAttribute number else .ok s
    return s.updateColors fb

/-- A position of `processAnsiCup`; the flag is `isRow`. -/
def cupPosition (p : Console × Bool) (number : List (BitVec 8)) :
    Except Fault (Console × Bool) := do
  let val ← strToInt (numberArray number)
  let pos := if val ≠ 0 then (val - 1).toNat else 0
  return (if p.2 then { p.1 with cursorRow := pos } else { p.1 with cursorCol := pos }, !p.2)

/-- `Console::processAnsiCup`. -/
def processAnsiCup : Except Fault Console := do
  let s := s.terminate
  let (p, number) ← scanNumbers cupPosition (s, true) [] s.ansiBuf.toList
  return (← cupPosition p number).1

/-- The format of the warning. -/
def unhandledFormat : List (BitVec 8) :=
  "Unhandled ANSI sequence: '%s' (%lu chars, final $%02x)".toList.map ascii

/-- `Console::processAnsi`; `platformWrite` is the platform's console behind the logger. -/
def processAnsi (g : Logger) (vsnprintf : Printf)
    (platformWrite : Console → List (BitVec 8) → Outcome Fault Console) :
    Outcome Fault Console := do
  if s.ansiBufUsed = 0 then return s
  else
    let some finalByte := s.ansiBuf.toList[s.ansiBufUsed - 1]? | .failed .overrun
    if finalByte = ascii 'm' then .ofExcept (s.processAnsiSgr fb)
    else if finalByte = ascii 'H' then .ofExcept s.processAnsiCup
    else
      let text ← .ofExcept (cString s.ansiBuf.toList)
      warning g vsnprintf platformWrite s unhandledFormat
        [.str text, .ulong s.ansiBufUsed, .char finalByte]

/-! ## Writing -/

/-- `ansiBuf[ansiBufUsed++] = ch`. -/
def pushAnsi (ch : BitVec 8) : Except Fault Console :=
  if s.ansiBufUsed < kAnsiBufSize then
    .ok { s with
      ansiBuf := s.ansiBuf.setIfInBounds s.ansiBufUsed ch
      ansiBufUsed := s.ansiBufUsed + 1 }
  else .error .overrun

/-- The range of the final bytes of a sequence. -/
def isFinalByte (ch : BitVec 8) : Bool := 0x40 ≤ ch.toInt ∧ ch.toInt ≤ 0x7E

/-- The body of `Console::write` for one character. -/
def writeWith (g : Logger) (vsnprintf : Printf)
    (platformWrite : Console → List (BitVec 8) → Outcome Fault Console) (s : Console)
    (ch : BitVec 8) : Outcome Fault Console :=
  match s.writeState with
  | .idle =>
      if ch ≠ ascii '\x1b' then .ofExcept (s.print fb ch)
      else .returned { s with writeState := .ansiEscapeStart }
  | .ansiEscapeStart =>
      if ch = ascii '[' then
        .returned { s with
          writeState := .ansiReadingCSI
          ansiBufUsed := 0
          ansiBuf := Vector.replicate kAnsiBufSize 0#8 }
      else .returned { s with writeState := .idle }
  | .ansiReadingCSI => do
      let s ← .ofExcept (s.pushAnsi ch)
      if isFinalByte ch then
        let s ← s.processAnsi fb g vsnprintf platformWrite
        return { s with writeState := .idle }
      else if s.ansiBufUsed = kAnsiBufSize then return { s with writeState := .idle }
      else return s

/-- A character of a log message, on its way to `write`. -/
def writeLogged (write : Console → BitVec 8 → Outcome Fault Console) (s : Console)
    (ch : BitVec 8) : Outcome Fault Console :=
  write { s with logged := s.logged ++ [(s.writeState, ch)] } ch

/-- `Console::write` for one character, with at most `depth` activations inside each other. The
platform's console hands the characters of a message on to the framebuffer console. -/
def write (g : Logger) (vsnprintf : Printf) : ℕ → Console → BitVec 8 → Outcome Fault Console
  | 0 => fun _ _ => .tooDeep
  | depth + 1 =>
      writeWith fb g vsnprintf fun s string =>
        string.foldlM (writeLogged (write g vsnprintf depth)) s

end Console

end KushOs.FbCons
