import Os161.Spec.Sfs

/-! The fields of an inode and the entries of an indirect block do not overlap. The
pointers lie behind the other three fields. -/

namespace Os161.Bytes

variable {b : Block} {k l v : ℕ}

/-- The two inodes have the same pointers. -/
structure SamePointers (b b' : Block) : Prop where
  indirect : b'.sfiIndirect = b.sfiIndirect
  direct : ∀ k, b'.sfiDirect k = b.sfiDirect k

/-- The two inodes agree in size, type and link count. -/
structure SameHead (b b' : Block) : Prop where
  size : b'.sfiSize = b.sfiSize
  type : b'.sfiType = b.sfiType
  linkcount : b'.sfiLinkcount = b.sfiLinkcount

theorem SameHead.refl (b : Block) : b.SameHead b := ⟨rfl, rfl, rfl⟩

theorem SameHead.trans {b' b'' : Block} (h : b.SameHead b') (h' : b'.SameHead b'') : b.SameHead b'' :=
  ⟨h'.size.trans h.size, h'.type.trans h.type, h'.linkcount.trans h.linkcount⟩

/-- A write in front of the pointers. -/
theorem samePointers_setNum {w o : ℕ} (h : o + w ≤ 8) (v : ℕ) : b.SamePointers (b.setNum w o v) :=
  ⟨num_setNum_of_disjoint b (by omega), fun _ => num_setNum_of_disjoint b (by omega)⟩

/-- A write to the pointers. -/
theorem sameHead_setNum {w o : ℕ} (h : 8 ≤ o) (v : ℕ) : b.SameHead (b.setNum w o v) :=
  ⟨num_setNum_of_disjoint b (by omega), num_setNum_of_disjoint b (by omega),
    num_setNum_of_disjoint b (by omega)⟩

@[simp] theorem sfiSize_setSfiSize (h : v < 4294967296) : (b.setSfiSize v).sfiSize = v :=
  num_setNum_same b (by omega) h

@[simp] theorem sfiType_setSfiSize : (b.setSfiSize v).sfiType = b.sfiType :=
  num_setNum_of_disjoint b (by omega)

@[simp] theorem sfiLinkcount_setSfiSize : (b.setSfiSize v).sfiLinkcount = b.sfiLinkcount :=
  num_setNum_of_disjoint b (by omega)

@[simp] theorem sfiType_setSfiType (h : v < 65536) : (b.setSfiType v).sfiType = v :=
  num_setNum_same b (by omega) h

@[simp] theorem sfiSize_setSfiType : (b.setSfiType v).sfiSize = b.sfiSize :=
  num_setNum_of_disjoint b (by omega)

@[simp] theorem sfiLinkcount_setSfiType : (b.setSfiType v).sfiLinkcount = b.sfiLinkcount :=
  num_setNum_of_disjoint b (by omega)

@[simp] theorem sfiLinkcount_setSfiLinkcount (h : v < 65536) : (b.setSfiLinkcount v).sfiLinkcount = v :=
  num_setNum_same b (by omega) h

@[simp] theorem sfiSize_setSfiLinkcount : (b.setSfiLinkcount v).sfiSize = b.sfiSize :=
  num_setNum_of_disjoint b (by omega)

@[simp] theorem sfiType_setSfiLinkcount : (b.setSfiLinkcount v).sfiType = b.sfiType :=
  num_setNum_of_disjoint b (by omega)

@[simp] theorem sfiIndirect_setSfiIndirect (h : v < 4294967296) : (b.setSfiIndirect v).sfiIndirect = v :=
  num_setNum_same b (by omega) h

theorem sfiDirect_setSfiIndirect (hk : k < 15) : (b.setSfiIndirect v).sfiDirect k = b.sfiDirect k :=
  num_setNum_of_disjoint b (by omega)

theorem sfiIndirect_setSfiDirect (hl : l < 15) : (b.setSfiDirect l v).sfiIndirect = b.sfiIndirect :=
  num_setNum_of_disjoint b (by omega)

theorem sfiDirect_setSfiDirect (hk : k < 15) (h : v < 4294967296) :
    (b.setSfiDirect k v).sfiDirect l = if l = k then v else b.sfiDirect l := by
  split_ifs with hlk
  · subst hlk
    exact num_setNum_same b (by omega) h
  · exact num_setNum_of_disjoint b (by omega)

theorem idEntry_setIdEntry (hk : k < 128) (h : v < 4294967296) :
    (b.setIdEntry k v).idEntry l = if l = k then v else b.idEntry l := by
  split_ifs with hlk
  · subst hlk
    exact num_setNum_same b (by omega) h
  · exact num_setNum_of_disjoint b (by omega)

@[simp] theorem sfiDirect_zero : (zero : Block).sfiDirect k = 0 := num_zero 4 _

@[simp] theorem sfiIndirect_zero : (zero : Block).sfiIndirect = 0 := num_zero 4 _

@[simp] theorem idEntry_zero : (zero : Block).idEntry k = 0 := num_zero 4 _

@[simp] theorem sfiSize_zero : (zero : Block).sfiSize = 0 := num_zero 4 _

@[simp] theorem sfiType_zero : (zero : Block).sfiType = 0 := num_zero 2 _

@[simp] theorem sfiLinkcount_zero : (zero : Block).sfiLinkcount = 0 := num_zero 2 _

end Os161.Bytes
