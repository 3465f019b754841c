import AbstractMachine.X86.Ioe.Gpu

/-!
# Canvases of x86-qemu

`gpu_render` walks a tree of canvases in `vmem`.  A texture is a picture in
`vmem`; the picture of a subtree is composed in a block of `vbuf`, which
`vbuf_alloc` takes from the front.  Each picture is then copied, scaled, into the
one of the parent.

The frame buffer, `vmem` and `vbuf` are arrays of their own here.  In memory they
are not far apart, and what is stored outside of one can be found in another; so
these definitions say what the program does while every rectangle lies inside the
picture that it is drawn in.  `int` has 32 bits and wraps around.
-/

namespace AbstractMachine.X86.Render

open AbstractMachine.X86.Gpu (GpuCanvas Pixel Word)

/-- `type` of a canvas that has pixels of its own. -/
def AM_GPU_TEXTURE : BitVec 16 := 1

/-- `type` of a canvas that others are drawn on. -/
def AM_GPU_SUBTREE : BitVec 16 := 2

/-- The pointer of a canvas without a sibling or a child. -/
def AM_GPU_NULL : Word := 0xffffffff

/-- The bytes of `vmem`. -/
def VMEM_SIZE : Nat := 512 <<< 10

/-! ## Memory -/

/-- What pointers point into; `low` is where a null pointer does. -/
inductive Region where
  | low
  | vmem
  | vbuf
  deriving DecidableEq, Repr

/-- A `struct pixel *`. -/
inductive Ptr where
  | fb
  | mem (r : Region) (a : Int)
  deriving DecidableEq, Repr

/-- A region of memory. -/
abbrev Bytes := Int → BitVec 8

/-- The three bytes of a pixel, blue first. -/
def loadPixel (m : Bytes) (a : Int) : Pixel := { b := m a, g := m (a + 1), r := m (a + 2) }

/-- A pixel stored. -/
def storePixel (m : Bytes) (a : Int) (p : Pixel) : Bytes := fun x =>
  if x = a then p.b else if x = a + 1 then p.g else if x = a + 2 then p.r else m x

/-- `n` zero bytes from `a` on. -/
def zeroFill (m : Bytes) (a n : Int) : Bytes := fun x => if a ≤ x ∧ x < a + n then 0 else m x

/-- A `uint16_t`. -/
def half (m : Bytes) (a : Int) : BitVec 16 := m (a + 1) ++ m a

/-- A `gpuptr_t`. -/
def word (m : Bytes) (a : Int) : Word := half m (a + 2) ++ half m a

/-- `struct gpu_canvas`; `child` and `texture` lie at the same place. -/
structure Canvas where
  type : BitVec 16
  w : BitVec 16
  h : BitVec 16
  x1 : BitVec 16
  y1 : BitVec 16
  w1 : BitVec 16
  h1 : BitVec 16
  sibling : Word
  child : Word
  textureW : BitVec 16
  textureH : BitVec 16
  texturePixels : Word
  deriving DecidableEq, Repr

/-- `struct gpu_canvas` at an address; it is packed. -/
def canvasAt (m : Bytes) (a : Int) : Canvas where
  type := half m a
  w := half m (a + 2)
  h := half m (a + 4)
  x1 := half m (a + 6)
  y1 := half m (a + 8)
  w1 := half m (a + 10)
  h1 := half m (a + 12)
  sibling := word m (a + 14)
  child := word m (a + 18)
  textureW := half m (a + 18)
  textureH := half m (a + 20)
  texturePixels := word m (a + 22)

/-- `sizeof(struct gpu_canvas)`. -/
def canvasSize : Nat := 26

/-- `to_host`: an offset into `vmem`, or a null pointer. -/
def toHost (ptr : Word) : Region × Int :=
  if ptr = AM_GPU_NULL then (.low, 0) else (.vmem, ptr.toNat)

/-! ## State -/

/-- A block that `vbuf_alloc` has returned: where it begins in `vbuf`, the size
that was asked for, and how many bytes its pixels need. -/
structure Alloc where
  ret : Int
  size : Int
  need : Nat
  deriving DecidableEq, Repr

/-- A pixel that has been copied. -/
structure Sample where
  w : BitVec 16
  h : BitVec 16
  w1 : BitVec 16
  h1 : BitVec 16
  i : Nat
  j : Nat
  deriving DecidableEq, Repr

/-- The statics of `gpu.c`, the frame buffer and the blocks handed out. -/
structure Gpu (arch : Arch) where
  display : GpuCanvas
  fb : Int → Pixel
  mem : Region → Bytes
  vbufHead : BitVec (wordBits arch)
  /-- The blocks of this `gpu_render`, in order. -/
  blocks : List Alloc
  /-- The pixels that it has copied, in order. -/
  drawn : List Sample

/-- A panic, or a walk through the canvases that does not end. -/
inductive Stop where
  | panic (msg : String)
  | timeout
  deriving DecidableEq, Repr

variable {arch : Arch}

/-- Pixel `k` from a pointer on. -/
def Gpu.load (s : Gpu arch) : Ptr → Int → Pixel
  | .fb, k => s.fb k
  | .mem r a, k => loadPixel (s.mem r) (a + 3 * k)

/-- Pixel `k` from a pointer on, replaced. -/
def Gpu.store (s : Gpu arch) (px : Ptr) (k : Int) (p : Pixel) : Gpu arch :=
  match px with
  | .fb => { s with fb := Function.update s.fb k p }
  | .mem r a =>
      { s with mem := Function.update s.mem r (storePixel (s.mem r) (a + 3 * k) p) }

/-! ## `vbuf_alloc` -/

/-- The picture that a block is for. -/
structure Request where
  w : BitVec 16
  h : BitVec 16
  deriving DecidableEq, Repr

/-- `w * h * sizeof(struct pixel)`: an `int`, times a `size_t`, passed as an `int`. -/
def Request.size (arch : Arch) (r : Request) : Word :=
  ((r.w.setWidth 32 * r.h.setWidth 32).signExtend (wordBits arch) * 3).setWidth 32

/-- `sizeof(struct pixel)` for each pixel. -/
def Request.need (r : Request) : Nat := 3 * (r.w.toNat * r.h.toNat)

/-- `vbuf_alloc`; `vbuf` is the address of the array. -/
def vbufAlloc (vbuf : BitVec (wordBits arch)) (r : Request) : EStateM Stop (Gpu arch) Ptr :=
  fun s =>
    let size := r.size arch
    let ret := (s.vbufHead - vbuf).toInt
    let head := s.vbufHead + size.signExtend (wordBits arch)
    if vbuf + BitVec.ofNat _ VMEM_SIZE < head then
      .error (.panic "no memory") { s with vbufHead := head }
    else
      .ok (.mem .vbuf ret)
        { s with
          vbufHead := head
          mem := Function.update s.mem .vbuf (zeroFill (s.mem .vbuf) ret size.toInt)
          blocks := s.blocks ++ [{ ret := ret, size := size.toInt, need := r.need }] }

/-! ## `render` -/

/-- `w * (j * h / cv->h1) + (i * w / cv->w1)`. -/
def srcIndex (w h w1 h1 : BitVec 16) (i j : Nat) : Word :=
  w.setWidth 32 * (BitVec.ofNat 32 j * h.setWidth 32).sdiv (h1.setWidth 32) +
    (BitVec.ofNat 32 i * w.setWidth 32).sdiv (w1.setWidth 32)

/-- `W * y + x`. -/
def dstIndex (c : Canvas) (W : BitVec 16) (i j : Nat) : Word :=
  W.setWidth 32 * (c.y1.setWidth 32 + BitVec.ofNat 32 j) + (c.x1.setWidth 32 + BitVec.ofNat 32 i)

/-- The body of the loops. -/
def copyPixel (c : Canvas) (W w h : BitVec 16) (pxLocal px : Ptr) (s : Gpu arch)
    (cell : Nat × Nat) : Gpu arch :=
  let s := s.store px (dstIndex c W cell.1 cell.2).toInt
    (s.load pxLocal (srcIndex w h c.w1 c.h1 cell.1 cell.2).toInt)
  { s with
    drawn := s.drawn ++ [{ w := w, h := h, w1 := c.w1, h1 := c.h1, i := cell.1, j := cell.2 }] }

/-- `i` from 0 on, and for each `j` from 0 on. -/
def cells (c : Canvas) : List (Nat × Nat) :=
  (List.range c.w1.toNat).flatMap fun i => (List.range c.h1.toNat).map fun j => (i, j)

/-- The loops, for a local canvas of `w` by `h`. -/
def drawLocal (c : Canvas) (W w h : BitVec 16) (pxLocal px : Ptr) (s : Gpu arch) : Gpu arch :=
  (cells c).foldl (copyPixel c W w h pxLocal px) s

/-- `render`, for a canvas at `cv` and a parent of width `W`; `children` is the
loop over the children of a canvas. -/
def render (vbuf : BitVec (wordBits arch))
    (children : Word → BitVec 16 → Ptr → EStateM Stop (Gpu arch) Unit) (cv : Region × Int)
    (W : BitVec 16) (px : Ptr) : EStateM Stop (Gpu arch) Unit := do
  let c := canvasAt ((← get).mem cv.1) cv.2
  if c.type = AM_GPU_TEXTURE then
    let pixels := toHost c.texturePixels
    modify (drawLocal c W c.textureW c.textureH (.mem pixels.1 pixels.2) px)
  else if c.type = AM_GPU_SUBTREE then
    let pxLocal ← vbufAlloc vbuf { w := c.w, h := c.h }
    children c.child c.w pxLocal
    modify (drawLocal c W c.w c.h pxLocal px)
  else
    throw (.panic "invalid node")

/-- The loop over `ch` and its siblings. -/
def renderChildren (vbuf : BitVec (wordBits arch)) :
    Nat → Word → BitVec 16 → Ptr → EStateM Stop (Gpu arch) Unit
  | 0, _, _, _ => throw .timeout
  | fuel + 1, ch, W, px =>
      if ch = AM_GPU_NULL then pure ()
      else do
        render vbuf (renderChildren vbuf fuel) (toHost ch) W px
        let c := canvasAt ((← get).mem .vmem) ch.toNat
        renderChildren vbuf fuel c.sibling W px

/-- `vbuf_head = vbuf`. -/
def Gpu.reset (vbuf : BitVec (wordBits arch)) (s : Gpu arch) : Gpu arch :=
  { s with vbufHead := vbuf, blocks := [], drawn := [] }

/-- `gpu_render`: the allocator is reset, and the tree drawn on the screen. -/
def gpuRender (vbuf : BitVec (wordBits arch)) (fuel : Nat) (root : Word) :
    EStateM Stop (Gpu arch) Unit := do
  modify (Gpu.reset vbuf)
  let s ← get
  render vbuf (renderChildren vbuf fuel) (toHost root) s.display.w .fb

/-! ## Trees -/

/-- A canvas, its children, and the siblings behind it. -/
inductive Forest where
  | nil
  | node (c : Canvas) (children rest : Forest)

/-- A canvas in `vmem`, whose children are `Kids`. -/
structure IsNode (m : Bytes) (c : Canvas) (Kids : Word → Prop) (kids : Forest) (ptr : Word) :
    Prop where
  inside : ptr.toNat + canvasSize ≤ VMEM_SIZE
  canvas : canvasAt m ptr.toNat = c
  kind : c.type = AM_GPU_TEXTURE ∧ kids = .nil ∨ c.type = AM_GPU_SUBTREE ∧ Kids c.child

/-- The forest behind a pointer to its first canvas. -/
def Forest.Holds (m : Bytes) : Forest → Word → Prop
  | .nil, ptr => ptr = AM_GPU_NULL
  | .node c kids rest, ptr => IsNode m c (kids.Holds m) kids ptr ∧ rest.Holds m c.sibling

/-- The number of canvases. -/
def Forest.size : Forest → Nat
  | .nil => 0
  | .node _ kids rest => kids.size + rest.size + 1

/-- Width and height of the local canvas. -/
def Canvas.width (c : Canvas) : BitVec 16 :=
  if c.type = AM_GPU_TEXTURE then c.textureW else c.w

/-- Height of the local canvas. -/
def Canvas.height (c : Canvas) : BitVec 16 :=
  if c.type = AM_GPU_TEXTURE then c.textureH else c.h

/-- What copying one pixel records. -/
def Canvas.sample (c : Canvas) (w h : BitVec 16) (cell : Nat × Nat) : Sample :=
  { w := w, h := h, w1 := c.w1, h1 := c.h1, i := cell.1, j := cell.2 }

/-- The pixels of a canvas, as they are copied. -/
def Canvas.samples (c : Canvas) : List Sample := (cells c).map (c.sample c.width c.height)

/-- The pixels of all canvases, the children of each before its own. -/
def Forest.samples : Forest → List Sample
  | .nil => []
  | .node c kids rest => kids.samples ++ c.samples ++ rest.samples

/-- The blocks that a canvas asks for itself. -/
def Canvas.requests (c : Canvas) : List Request :=
  if c.type = AM_GPU_SUBTREE then [{ w := c.w, h := c.h }] else []

/-- All the blocks that are asked for, in order. -/
def Forest.requests : Forest → List Request
  | .nil => []
  | .node c kids rest => c.requests ++ kids.requests ++ rest.requests

/-- Every canvas. -/
def Forest.All (P : Canvas → Prop) : Forest → Prop
  | .nil => True
  | .node c kids rest => P c ∧ kids.All P ∧ rest.All P

/-- The rectangle of a canvas, unless it is empty, lies in a picture of `W` by `H`. -/
def Canvas.RectInside (c : Canvas) (W H : Nat) : Prop :=
  c.w1.toNat = 0 ∨ c.h1.toNat = 0 ∨
    c.x1.toNat + c.w1.toNat ≤ W ∧ c.y1.toNat + c.h1.toNat ≤ H

/-- So does every one, and those of children in the picture of their parent. -/
def Forest.RectsInside (W H : Nat) : Forest → Prop
  | .nil => True
  | .node c kids rest =>
      c.RectInside W H ∧ kids.RectsInside c.width.toNat c.height.toNat ∧ rest.RectsInside W H

/-- A canvas with pixels, drawn inside a picture of `W` by `H`; a texture lies in
`vmem`. -/
structure Canvas.Inside (c : Canvas) (W H : Nat) : Prop where
  width : 1 ≤ c.width.toNat
  height : 1 ≤ c.height.toNat
  right : c.x1.toNat + c.w1.toNat ≤ W
  bottom : c.y1.toNat + c.h1.toNat ≤ H
  texture : c.type = AM_GPU_TEXTURE →
    c.texturePixels.toNat + 3 * (c.width.toNat * c.height.toNat) ≤ VMEM_SIZE

theorem Canvas.Inside.rect {c : Canvas} {W H : Nat} (h : c.Inside W H) : c.RectInside W H :=
  Or.inr (Or.inr ⟨h.right, h.bottom⟩)

/-- So is every canvas, and every child in the picture of its parent. -/
def Forest.Inside (W H : Nat) : Forest → Prop
  | .nil => True
  | .node c kids rest =>
      c.Inside W H ∧ kids.Inside c.width.toNat c.height.toNat ∧ rest.Inside W H

/-! ## Small trees -/

/-- The two bytes of a `uint16_t`. -/
def halfBytes (v : BitVec 16) : List (BitVec 8) := [v.setWidth 8, (v >>> 8).setWidth 8]

/-- The bytes of a canvas; those of `texture` are also the ones of `child`. -/
def Canvas.bytes (c : Canvas) : List (BitVec 8) :=
  [c.type, c.w, c.h, c.x1, c.y1, c.w1, c.h1, c.sibling.setWidth 16, (c.sibling >>> 16).setWidth 16,
    c.textureW, c.textureH, c.texturePixels.setWidth 16,
    (c.texturePixels >>> 16).setWidth 16].flatMap halfBytes

/-- The canvases stand at the beginning of `vmem`. -/
def vmemOf (cs : List Canvas) : Bytes := fun a => (cs.flatMap Canvas.bytes).getD a.toNat 0

/-- A machine with the canvases `cs` in `vmem`. -/
def gpuOf (arch : Arch) (display : GpuCanvas) (cs : List Canvas) : Gpu arch where
  display := display
  fb _ := { b := 0, g := 0, r := 0 }
  mem _ := vmemOf cs
  vbufHead := 0
  blocks := []
  drawn := []

/-- `vbuf` at 2 MiB. -/
def vbufAddr : BitVec (wordBits .x86_64) := 0x200000#64

/-- A subtree of `w` by `h` without children, which is not drawn. -/
def loneSubtree (w h : BitVec 16) : Canvas where
  type := AM_GPU_SUBTREE
  w := w
  h := h
  x1 := 0
  y1 := 0
  w1 := 0
  h1 := 0
  sibling := AM_GPU_NULL
  child := AM_GPU_NULL
  textureW := 0xffff
  textureH := 0xffff
  texturePixels := 0

/-- A texture of `w` by 1 pixels, drawn in row `y1` without scaling. -/
def stripTexture (w y1 : BitVec 16) : Canvas where
  type := AM_GPU_TEXTURE
  w := 0
  h := 0
  x1 := 0
  y1 := y1
  w1 := w
  h1 := 1
  sibling := AM_GPU_NULL
  child := 1#16 ++ w
  textureW := w
  textureH := 1
  texturePixels := 0x100

/-- A subtree of `w` by 2, drawn at the upper edge; its child is behind it. -/
def stripSubtree (w : BitVec 16) : Canvas where
  type := AM_GPU_SUBTREE
  w := w
  h := 2
  x1 := 0
  y1 := 0
  w1 := 640
  h1 := 2
  sibling := AM_GPU_NULL
  child := 26
  textureW := 26
  textureH := 0
  texturePixels := 0

end AbstractMachine.X86.Render
