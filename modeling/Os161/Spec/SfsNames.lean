import Os161.Spec.Volume

/-! What the directory of an SFS volume is for: a finite map from names to inode
numbers, which the directory operations change one binding at a time, and what the
link counts are for. -/

namespace Os161

/-- `sfs_write` is called, and not one of the other operations. -/
def SfsEv.isWrite : SfsEv → Bool
  | .write _ _ => true
  | _ => false

/-- Slot `k` of the directory binds `name` to `i`. -/
def Vol.Entry (V : Vol) (name : List UInt8) (i k : ℕ) : Prop :=
  k < V.nslots ∧ i ≠ 0 ∧ sfdIno (V.slot k) = i ∧ sfdName (V.slot k) = name

/-- The directory as a map: the first slot with the name binds it. -/
def Vol.names (V : Vol) (name : List UInt8) : Option ℕ :=
  (List.range V.nslots).findSome? fun k =>
    if sfdIno (V.slot k) ≠ 0 ∧ sfdName (V.slot k) = name then some (sfdIno (V.slot k)) else none

/-- The live entries were written with a name of at most 59 bytes and its null. -/
def Vol.Terminated (V : Vol) : Prop :=
  ∀ k < V.nslots, sfdIno (V.slot k) ≠ 0 →
    ∃ name : CStr, name.chars.length ≤ 59 ∧ V.slot k = mkDirentry (sfdIno (V.slot k)) name.chars

/-- Why `sfs_dir_link` fails: the name is taken or too long, the directory has all the
slots that a file can hold, or the volume is full. -/
def Sfs.LinkError (s t : Sfs) (name : CStr) (e : Errno) : Prop :=
  (e = .eexist ∧ s.vol.names name.chars ≠ none) ∨
    s.vol.names name.chars = none ∧
      (e = .enametoolong ∧ 59 < name.chars.length ∨ e = .efbig ∧ 1144 ≤ s.vol.nslots ∨ e = .enospc ∧ t.Full)

/-- The directory refines the map: it binds each name once, a search finds exactly the
binding, and the operations on it make the change that they stand for, or none; and
none of them ends in a panic. -/
structure Sfs.Directory (s : Sfs) : Prop where
  finite : {name | s.vol.names name ≠ none}.Finite
  terminated : s.vol.Terminated
  distinct : ∀ name i j k l, s.vol.Entry name i k → s.vol.Entry name j l → k = l
  aligned : (s.vol.block 1).sfiSize % 64 = 0
  findname : s.vol.loaded 1 → ∀ name : CStr, (sfsDirFindname 1 name).wp False
    (fun f t => t = s ∧ (∀ i k, f.hit = some (i, k) ↔ s.vol.Entry name.chars i k) ∧
      f.hit.map Prod.fst = s.vol.names name.chars)
    (fun _ _ => False) s
  dirLink : s.vol.loaded 1 → ∀ (name : CStr) i, s.vol.loaded i → i ≠ 1 → (sfsDirLink 1 name i).wp False
    (fun k t => s.vol.names name.chars = none ∧ t.vol.Entry name.chars i k ∧
      t.vol.names = Function.update s.vol.names name.chars (some i))
    (fun e t => s.LinkError t name e ∧ t.vol.names = s.vol.names) s
  dirUnlink : s.vol.loaded 1 → ∀ name i k, s.vol.Entry name i k → s.vol.loaded i → (sfsDirUnlink 1 k).wp False
    (fun _ t => t.vol.names = Function.update s.vol.names name none)
    (fun _ _ => False) s
  creat : s.vol.loaded 1 → ∀ (name : CStr) excl, (sfsCreat 1 name excl).wp False
    (fun i t => (excl = false ∧ s.vol.names name.chars = some i ∧ t.vol.names = s.vol.names) ∨
      (s.vol.names name.chars = none ∧ (∀ n, s.vol.names n ≠ some i) ∧
        t.vol.names = Function.update s.vol.names name.chars (some i)))
    (fun _ t => t.vol.names = s.vol.names) s
  link : s.vol.loaded 1 → ∀ (name : CStr) i, s.vol.loaded i → (sfsLink 1 name i).wp False
    (fun _ t => s.vol.names name.chars = none ∧ t.vol.names = Function.update s.vol.names name.chars (some i))
    (fun _ t => t.vol.names = s.vol.names) s
  remove : s.vol.loaded 1 → ∀ name : CStr, (sfsRemove 1 name).wp False
    (fun _ t => s.vol.names name.chars ≠ none ∧ t.vol.names = Function.update s.vol.names name.chars none)
    (fun _ t => t.vol.names = s.vol.names) s
  rename : s.vol.loaded 1 → ∀ n1 n2 : CStr, (sfsRename 1 n1 n2).wp False
    (fun _ t => ∃ i, s.vol.names n1.chars = some i ∧ s.vol.names n2.chars = none ∧
      t.vol.names = Function.update (Function.update s.vol.names n2.chars (some i)) n1.chars none)
    (fun _ t => t.vol.names = s.vol.names) s

/-- The link counts are right, wherever the inode is, and so small that another link does
not wrap them; no operation comes upon one that is wrong, and a file is erased with its
last reference exactly if it has no name. -/
structure Sfs.Linkcounts (s : Sfs) : Prop where
  right : ∀ i, s.vol.Inode i → i ≠ 1 → (s.vol.block i).sfiLinkcount = s.vol.links i
  small : ∀ i, s.vol.Inode i → i ≠ 1 → (s.vol.block i).sfiLinkcount + 1 < 65536
  lookonce : s.vol.loaded 1 → ∀ name : CStr, (sfsLookonce 1 name).wp False (fun _ _ => True) (fun _ _ => True) s
  creat : s.vol.loaded 1 → ∀ (name : CStr) excl,
    (sfsCreat 1 name excl).wp False (fun _ _ => True) (fun _ _ => True) s
  link : s.vol.loaded 1 → ∀ (name : CStr) i, s.vol.loaded i →
    (sfsLink 1 name i).wp False (fun _ _ => True) (fun _ _ => True) s
  remove : s.vol.loaded 1 → ∀ name : CStr, (sfsRemove 1 name).wp False (fun _ _ => True) (fun _ _ => True) s
  rename : s.vol.loaded 1 → ∀ n1 n2 : CStr, (sfsRename 1 n1 n2).wp False (fun _ _ => True) (fun _ _ => True) s
  decref : ∀ i, s.vol.loaded i → (vnodeDecref i).wp False (fun _ _ => True) (fun _ _ => False) s
  reclaim : ∀ i v, s.vnode i = some v → (sfsReclaim i).wp False
    (fun _ t => v.refcount = 1 ∧ ¬ t.vol.loaded i ∧ t.vol.FreemapExact ∧
      (i ≠ 1 ∧ s.vol.links i = 0 → t.freemap i = false ∧ ¬ t.vol.Inode i) ∧
      (i = 1 ∨ s.vol.links i ≠ 0 → t.vol.block = s.vol.block ∧ t.freemap = s.freemap))
    (fun e t => e = .ebusy ∧ 1 < v.refcount ∧ t.vol = s.vol) s

end Os161
