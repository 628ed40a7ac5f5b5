import Os161.Lib.Owner
import Os161.Spec.SfsVnops

/-! What an SFS volume means, wherever the authoritative copy of an inode is: a
loaded inode stands in for its block on the disk. Every pointer, every file's data
and the directory are read off these logical blocks. -/

namespace Os161

/-- The volume as the operations see it. -/
structure Vol where
  nblocks : ℕ
  used : ℕ → Bool
  loaded : ℕ → Prop
  block : ℕ → Block

/-- The logical contents of a block. -/
def Sfs.block (s : Sfs) (b : ℕ) : Block :=
  match s.vnode b with
  | some v => v.i
  | none => s.dev.sector b

def Sfs.vol (s : Sfs) : Vol where
  nblocks := s.nblocks
  used := s.freemap
  loaded i := (s.vnode i).isSome
  block := s.block

namespace Vol

/-- The indirect block of a file. -/
def ind (V : Vol) (i : ℕ) : ℕ := (V.block i).sfiIndirect

/-- The disk block of a file block, 0 for a hole. -/
def map (V : Vol) (i fb : ℕ) : ℕ :=
  if fb < 15 then (V.block i).sfiDirect fb
  else if V.ind i = 0 then 0
  else (V.block (V.ind i)).idEntry (fb - 15)

/-- The contents of a file block. -/
def data (V : Vol) (i fb : ℕ) : Block :=
  if V.map i fb = 0 then Bytes.zero else V.block (V.map i fb)

/-- The number of slots of the directory. -/
def nslots (V : Vol) : ℕ := (V.block 1).sfiSize / 64

/-- The directory entry in a slot. -/
def slot (V : Vol) (k : ℕ) : List UInt8 := (V.data 1 (k / 8)).slice (k % 8 * 64) 64

/-- `i` is the root inode, or a vnode is loaded for it, or a directory entry names it. -/
def Inode (V : Vol) (i : ℕ) : Prop :=
  i = 1 ∨ V.loaded i ∨ ∃ k < V.nslots, i ≠ 0 ∧ sfdIno (V.slot k) = i

/-- The number of directory entries that name `i`. -/
def links (V : Vol) (i : ℕ) : ℕ := (List.range V.nslots).countP fun k => sfdIno (V.slot k) = i

end Vol

/-- The ways to refer to a block. -/
inductive Ref where
  | super
  | freemap (k : ℕ)
  | pastEnd
  | inode (i : ℕ)
  | indirect (i : ℕ)
  /-- a direct pointer of the inode for the file blocks below 15, and an entry of its
  indirect block for the others -/
  | pointer (i fb : ℕ)

/-- Which block a reference of the volume refers to. -/
def Vol.Refs (V : Vol) : Ref → ℕ → Prop
  | .super, b => b = 0
  | .freemap k, b => k < sfsFreemapblocks V.nblocks ∧ b = 2 + k
  | .pastEnd, b => V.nblocks ≤ b ∧ b < sfsFreemapbits V.nblocks
  | .inode i, b => V.Inode i ∧ b = i
  | .indirect i, b => V.Inode i ∧ b ≠ 0 ∧ b = V.ind i
  | .pointer i fb, b => V.Inode i ∧ fb < 143 ∧ b ≠ 0 ∧ b = V.map i fb

/-- The freemap marks exactly the blocks that are referred to, and no block is
referred to in two ways or by two inodes. -/
structure Vol.FreemapExact (V : Vol) : Prop where
  exact : ∀ b < sfsFreemapbits V.nblocks, V.used b = true ↔ ∃ r, V.Refs r b
  unique : ∀ r r' b, V.Refs r b → V.Refs r' b → r = r'

/-- No block is free. -/
def Sfs.Full (s : Sfs) : Prop := ∀ b < sfsFreemapbits s.nblocks, s.freemap b = true

/-- A mounted volume that is in order, on a disk without errors to come. -/
structure Sfs.Consistent (s : Sfs) : Prop where
  freemap : s.vol.FreemapExact
  -- the freemap has a bit for every block, and its own blocks lie in the volume
  covered : s.nblocks ≤ sfsFreemapbits s.nblocks
  room : 2 + sfsFreemapblocks s.nblocks ≤ s.nblocks
  bounds : ∀ i, s.vol.Inode i →
    i < s.nblocks ∧ s.vol.ind i < s.nblocks ∧ ∀ fb < 143, s.vol.map i fb < s.nblocks
  -- the directory: whole entries for files, no name twice, link counts that are right
  rootType : (s.vol.block 1).sfiType = sfsTypeDir
  rootLinks : 0 < (s.vol.block 1).sfiLinkcount
  dirSize : (s.vol.block 1).sfiSize ≤ 143 * 512
  aligned : (s.vol.block 1).sfiSize % 64 = 0
  fileType : ∀ i, s.vol.Inode i → i ≠ 1 → (s.vol.block i).sfiType = sfsTypeFile
  noRoot : ∀ k < s.vol.nslots, sfdIno (s.vol.slot k) ≠ 1
  links : ∀ i, s.vol.Inode i → i ≠ 1 → s.vol.links i = (s.vol.block i).sfiLinkcount
  names : ∀ k < s.vol.nslots, ∀ l < s.vol.nslots, sfdIno (s.vol.slot k) ≠ 0 → sfdIno (s.vol.slot l) ≠ 0 →
    sfdName (s.vol.slot k) = sfdName (s.vol.slot l) → k = l
  -- the vnodes, and the disk under the volume
  nodup : (s.vnodes.map SfsVnode.ino).Nodup
  clean : ∀ v ∈ s.vnodes, v.dirty = false → s.dev.sector v.ino = v.i
  held : ∀ v ∈ s.vnodes, 0 < v.refcount
  disk : s.nblocks ≤ s.dev.dBlocks
  quiet : s.dev.outcomes = []

end Os161
