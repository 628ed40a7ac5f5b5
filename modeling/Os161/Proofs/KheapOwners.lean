import Os161.Lib.Owner
import Os161.Lib.Placement
import Os161.Proofs.KheapBlocks

/-! Who has each page that `alloc_kpages` gave out, and who has each entry of the
pageref pages, while threads are between two sections under the lock. -/

namespace Os161

inductive HeapOwner where
  | heap
  | roots
  | thread (t : ℕ)

/-- The pages that a thread will put into the heap or give back. -/
def Kphase.pages : Kphase → List ℕ
  | .idle => []
  | .page _ => []
  | .fresh _ prpage => [prpage]
  | .refpage _ prpage _ _ => [prpage]
  | .refgot _ prpage _ _ va => if va = 0 then [prpage] else [prpage, va]
  | .refspare _ prpage _ _ va => [prpage, va]
  | .refback _ prpage _ _ => [prpage]
  | .drop prpage => [prpage]

def rootPages (roots : ℕ → KheapRoot) : List ℕ := ((List.range 16).map fun r => (roots r).page).filter (· ≠ 0)

def pagesOf (roots : ℕ → KheapRoot) (phase : ℕ → Kphase) (addrs : List ℕ) : HeapOwner → List ℕ
  | .heap => addrs
  | .roots => rootPages roots
  | .thread t => (phase t).pages

def entriesOf (phase : ℕ → Kphase) (slots : List (ℕ × ℕ)) : HeapOwner → List (ℕ × ℕ)
  | .heap => slots
  | .roots => []
  | .thread t => (phase t).entry

/-- Every page has one owner, every entry at most one; an entry that has one is
marked. If `X` then an entry that is marked has one, and if `Y` then the roots get their
pages in order. -/
structure KheapOwners (X Y : Prop) (roots : ℕ → KheapRoot) (phase : ℕ → Kphase) (kpages addrs : List ℕ)
    (slots : List (ℕ × ℕ)) : Prop where
  pages : Placed (pagesOf roots phase addrs) (· ∈ kpages)
  given : ∀ a ∈ kpages, a ≠ 0 ∧ a % 4096 = 0 ∧ a + 4096 ≤ 4294967296
  nodup : kpages.Nodup
  entries : Placed (entriesOf phase slots) fun x => ∃ o, x ∈ entriesOf phase slots o
  inuse : ∀ o, ∀ x ∈ entriesOf phase slots o, x.1 < 16 ∧ x.2 < 256 ∧ (roots x.1).pagerefsInuse x.2 = true
  count : ∀ r < 16, (roots r).numinuse = (List.range 256).countP (roots r).pagerefsInuse
  owned : X → ∀ r < 16, ∀ j < 256, (roots r).pagerefsInuse j = true → ∃ o, (r, j) ∈ entriesOf phase slots o
  ordered : Y → ∀ r < 16, (roots r).page ≠ 0 ∨ (roots r).numinuse ≠ 0 → ∀ q < r, (roots q).page ≠ 0

variable {X Y : Prop} {roots roots' : ℕ → KheapRoot} {phase : ℕ → Kphase} {kpages addrs : List ℕ} {slots : List (ℕ × ℕ)}
  {t r j va : ℕ} {ph : Kphase}

theorem pagesOf_update_self :
    pagesOf roots (Function.update phase t ph) addrs (.thread t) = ph.pages := by
  rw [pagesOf, Function.update_self]

theorem entriesOf_update_self :
    entriesOf (Function.update phase t ph) slots (.thread t) = ph.entry := by
  rw [entriesOf, Function.update_self]

theorem pagesOf_update_of_ne {o : HeapOwner} (ho : o ≠ .thread t) :
    pagesOf roots (Function.update phase t ph) addrs o = pagesOf roots phase addrs o := by
  cases o with
  | heap => rfl
  | roots => rfl
  | thread u =>
    have hne : u ≠ t := fun he => ho (he ▸ rfl)
    rw [pagesOf, pagesOf, Function.update_of_ne hne]

theorem entriesOf_update_of_ne {o : HeapOwner} (ho : o ≠ .thread t) :
    entriesOf (Function.update phase t ph) slots o = entriesOf phase slots o := by
  cases o with
  | heap => rfl
  | roots => rfl
  | thread u =>
    have hne : u ≠ t := fun he => ho (he ▸ rfl)
    rw [entriesOf, entriesOf, Function.update_of_ne hne]

theorem entriesOf_update_same (slots : List (ℕ × ℕ)) (he : ph.entry = (phase t).entry) :
    entriesOf (Function.update phase t ph) slots = entriesOf phase slots := by
  funext o
  by_cases ho : o = .thread t
  · rw [ho, entriesOf_update_self, he]
    rfl
  · exact entriesOf_update_of_ne ho

/-- The roots `roots'` are `roots` with the bit of the entry `(r, j)` at `v` and the count at `n`. -/
structure SetBit (roots roots' : ℕ → KheapRoot) (r j : ℕ) (v : Bool) (n : ℕ) : Prop where
  other : ∀ q ≠ r, roots' q = roots q
  page : ∀ q, (roots' q).page = (roots q).page
  bit : ∀ x : ℕ × ℕ, x ≠ (r, j) → (roots' x.1).pagerefsInuse x.2 = (roots x.1).pagerefsInuse x.2
  self : (roots' r).pagerefsInuse j = v
  num : (roots' r).numinuse = n

theorem bit_set {v : Bool} {n : ℕ} (hroots : roots' = Function.update roots r
    { roots r with pagerefsInuse := Function.update (roots r).pagerefsInuse j v, numinuse := n }) :
    SetBit roots roots' r j v n := by
  have hself : roots' r = _ := hroots ▸ Function.update_self ..
  have hother (q : ℕ) (hq : q ≠ r) : roots' q = roots q := hroots ▸ Function.update_of_ne hq ..
  refine ⟨hother, fun q => ?_, fun x hx => ?_, ?_, by rw [hself]⟩
  · by_cases hq : q = r
    · rw [hq, hself]
    · rw [hother q hq]
  · by_cases hq : x.1 = r
    · rw [hq, hself]
      exact Function.update_of_ne (fun hx2 => hx (Prod.ext hq hx2)) ..
    · rw [hother x.1 hq]
  · rw [hself]
    exact Function.update_self ..

theorem SetBit.rootPages {v : Bool} {n : ℕ} (hb : SetBit roots roots' r j v n) : rootPages roots' = rootPages roots := by
  simp only [Os161.rootPages, hb.page]

theorem SetBit.count {v : Bool} {n : ℕ} (hb : SetBit roots roots' r j v n) (hj : j < 256)
    (hn : n + ((roots r).pagerefsInuse j).toNat = (roots r).numinuse + v.toNat)
    (h : ∀ q < 16, (roots q).numinuse = (List.range 256).countP (roots q).pagerefsInuse) (q : ℕ) (hq : q < 16) :
    (roots' q).numinuse = (List.range 256).countP (roots' q).pagerefsInuse := by
  by_cases hqr : q = r
  · subst hqr
    have hcount := countP_range_change (p := (roots q).pagerefsInuse) (q := (roots' q).pagerefsInuse) hj
      fun l _ hl => hb.bit (q, l) fun he => hl (congrArg Prod.snd he)
    have hold := h q hq
    rw [hb.self] at hcount
    rw [hb.num]
    omega
  · rw [hb.other q hqr]
    exact h q hq

namespace KheapOwners

/-- A thread goes on with what it has. -/
theorem setPhase (h : KheapOwners X Y roots phase kpages addrs slots) (hp : ph.pages.Perm (phase t).pages)
    (he : ph.entry = (phase t).entry) : KheapOwners X Y roots (Function.update phase t ph) kpages addrs slots := by
  have hentries := entriesOf_update_same slots he
  refine ⟨h.pages.perm fun o => ?_, h.given, h.nodup, by rw [hentries]; exact h.entries,
    by rw [hentries]; exact h.inuse, h.count, by rw [hentries]; exact h.owned, h.ordered⟩
  by_cases ho : o = .thread t
  · rw [ho, pagesOf_update_self]
    exact hp
  · rw [pagesOf_update_of_ne ho]

/-- `alloc_kpages` gives a page to a thread. -/
theorem allocKpages (h : KheapOwners X Y roots phase kpages addrs slots) (h0 : va ≠ 0) (hal : va % 4096 = 0)
    (hb : va + 4096 ≤ 4294967296) (hva : va ∉ kpages) (hp : ph.pages = (phase t).pages ++ [va])
    (he : ph.entry = (phase t).entry) :
    KheapOwners X Y roots (Function.update phase t ph) (va :: kpages) addrs slots := by
  have hentries := entriesOf_update_same slots he
  refine ⟨?_, ?_, List.nodup_cons.mpr ⟨hva, h.nodup⟩, by rw [hentries]; exact h.entries,
    by rw [hentries]; exact h.inuse, h.count, by rw [hentries]; exact h.owned, h.ordered⟩
  · refine (h.pages.insert (q := .thread t) hva ?_ fun o ho => ?_).congr_live fun a => ?_
    · rw [pagesOf_update_self, hp]
      rfl
    · rw [pagesOf_update_of_ne ho]
    · rw [List.mem_cons, or_comm]
  · intro a ha
    rcases List.mem_cons.mp ha with rfl | ha
    · exact ⟨h0, hal, hb⟩
    · exact h.given a ha

/-- `free_kpages` takes a page of a thread back. -/
theorem freeKpages (h : KheapOwners X Y roots phase kpages addrs slots) (hp : (phase t).pages.Perm (va :: ph.pages))
    (he : ph.entry = (phase t).entry) :
    KheapOwners X Y roots (Function.update phase t ph) (kpages.erase va) addrs slots := by
  have hentries := entriesOf_update_same slots he
  refine ⟨?_, fun a ha => h.given a (List.mem_of_mem_erase ha), h.nodup.erase va,
    by rw [hentries]; exact h.entries, by rw [hentries]; exact h.inuse, h.count,
    by rw [hentries]; exact h.owned, h.ordered⟩
  refine (h.pages.remove (p := .thread t) (t := va) ?_ fun o ho => ?_).congr_live fun a => ?_
  · rw [pagesOf_update_self]
    exact hp
  · rw [pagesOf_update_of_ne ho]
  · rw [h.nodup.mem_erase_iff, and_comm]

/-- A thread marks an entry that is clear. -/
theorem reserve (h : KheapOwners X Y roots phase kpages addrs slots) (hr : r < 16) (hj : j < 256)
    (hclear : (roots r).pagerefsInuse j = false) (hbelow : Y → ∀ q < r, (roots q).page ≠ 0)
    (hp : ph.pages = (phase t).pages) (hnone : (phase t).entry = [])
    (he : ph.entry = [(r, j)]) (hroots : roots' = Function.update roots r
      { roots r with pagerefsInuse := Function.update (roots r).pagerefsInuse j true,
                     numinuse := (roots r).numinuse + 1 }) :
    KheapOwners X Y roots' (Function.update phase t ph) kpages addrs slots := by
  have hb := bit_set hroots
  have hfree (o : HeapOwner) : (r, j) ∉ entriesOf phase slots o := fun hmem => by
    have hset := (h.inuse o _ hmem).2.2
    rw [hclear] at hset
    exact Bool.false_ne_true hset
  refine ⟨?_, h.given, h.nodup, ?_, fun o x hx => ?_, hb.count hj (by rw [hclear]; rfl) h.count,
    fun hX q hq l hl hset => ?_, fun hY q hq hused => ?_⟩
  · refine h.pages.perm fun o => ?_
    by_cases ho : o = .thread t
    · rw [ho, pagesOf_update_self, hp]
      rfl
    · rw [pagesOf_update_of_ne ho]
      cases o <;> simp only [pagesOf, hb.rootPages, List.Perm.refl]
  · refine (h.entries.insert (q := .thread t) (t := (r, j)) (fun ho => ho.elim hfree) ?_ fun o ho => ?_).self
    · rw [entriesOf_update_self, he, entriesOf, hnone]
      rfl
    · rw [entriesOf_update_of_ne ho]
  · by_cases ho : o = .thread t
    · rw [ho, entriesOf_update_self, he, List.mem_singleton] at hx
      rw [hx]
      exact ⟨hr, hj, hb.self⟩
    · rw [entriesOf_update_of_ne ho] at hx
      obtain ⟨h1, h2, h3⟩ := h.inuse o x hx
      exact ⟨h1, h2, (hb.bit x fun hxr => hfree o (hxr ▸ hx)).trans h3⟩
  · by_cases hql : (q, l) = (r, j)
    · refine ⟨.thread t, ?_⟩
      rw [hql, entriesOf_update_self, he]
      exact List.mem_cons_self
    · obtain ⟨o, ho⟩ := h.owned hX q hq l hl ((hb.bit (q, l) hql).symm.trans hset)
      have hne : o ≠ .thread t := by
        intro hot
        rw [hot, entriesOf, hnone] at ho
        exact absurd ho List.not_mem_nil
      exact ⟨o, by rw [entriesOf_update_of_ne hne]; exact ho⟩
  · simp only [hb.page]
    by_cases hqr : q = r
    · rw [hqr]
      exact hbelow hY
    · rw [hb.other q hqr] at hused
      exact h.ordered hY q hq hused

/-- A thread gives up on the entry that it marked; the bit stays. -/
theorem leak (h : KheapOwners X Y roots phase kpages addrs slots) (hX : ¬ X) (hp : ph.pages = (phase t).pages)
    (hentry : (phase t).entry = [(r, j)]) (he : ph.entry = []) :
    KheapOwners X Y roots (Function.update phase t ph) kpages addrs slots := by
  refine ⟨h.pages.perm fun o => ?_, h.given, h.nodup, ?_, fun o x hx => ?_, h.count, fun h' => absurd h' hX, h.ordered⟩
  · by_cases ho : o = .thread t
    · rw [ho, pagesOf_update_self, hp]
      rfl
    · rw [pagesOf_update_of_ne ho]
  · refine (h.entries.remove (p := .thread t) (t := (r, j)) ?_ fun o ho => ?_).self
    · rw [entriesOf_update_self, he, entriesOf, hentry]
    · rw [entriesOf_update_of_ne ho]
  · by_cases ho : o = .thread t
    · rw [ho, entriesOf_update_self, he] at hx
      exact absurd hx List.not_mem_nil
    · rw [entriesOf_update_of_ne ho] at hx
      exact h.inuse o x hx

/-- The page and the entry of a thread become a page of the heap. -/
theorem install (ph : Kphase) (h : KheapOwners X Y roots phase kpages addrs slots) (hp : (phase t).pages = [va])
    (hentry : (phase t).entry = [(r, j)]) (hp' : ph.pages = []) (he' : ph.entry = []) :
    KheapOwners X Y roots (Function.update phase t ph) kpages (va :: addrs) ((r, j) :: slots) := by
  refine ⟨?_, h.given, h.nodup, ?_, fun o x hx => ?_, h.count, fun hX q hq l hl hset => ?_, h.ordered⟩
  · refine h.pages.transfer (p := .thread t) (q := .heap) (l := [va]) (by simp) ?_ ?_ fun o ho _ => ?_
    · rw [pagesOf_update_self, hp', pagesOf, hp]
      rfl
    · exact List.perm_append_singleton va _ |>.symm
    · rw [pagesOf_update_of_ne ho]
      cases o <;> first | exact List.Perm.refl _ | contradiction
  · refine (h.entries.transfer (p := .thread t) (q := .heap) (l := [(r, j)]) (by simp) ?_ ?_ fun o ho _ => ?_).self
    · rw [entriesOf_update_self, he', entriesOf, hentry]
      rfl
    · exact List.perm_append_singleton (r, j) _ |>.symm
    · rw [entriesOf_update_of_ne ho]
      cases o <;> first | exact List.Perm.refl _ | contradiction
  · by_cases ho : o = .thread t
    · rw [ho, entriesOf_update_self, he'] at hx
      exact absurd hx List.not_mem_nil
    · rw [entriesOf_update_of_ne ho] at hx
      cases o with
      | heap =>
        rcases List.mem_cons.mp hx with rfl | hx
        · exact h.inuse (.thread t) _ (by rw [entriesOf, hentry]; exact List.mem_cons_self)
        · exact h.inuse .heap x hx
      | roots => exact absurd hx List.not_mem_nil
      | thread u => exact h.inuse (.thread u) x hx
  · obtain ⟨o, ho⟩ := h.owned hX q hq l hl hset
    by_cases hot : o = .thread t
    · rw [hot, entriesOf, hentry, List.mem_singleton] at ho
      exact ⟨.heap, by rw [ho]; exact List.mem_cons_self⟩
    · refine ⟨o, ?_⟩
      rw [entriesOf_update_of_ne hot]
      cases o with
      | heap => exact List.mem_cons_of_mem _ ho
      | roots => exact ho
      | thread u => exact ho

theorem rootPages_set (hr : r < 16) (h0 : (roots r).page = 0) (hva : va ≠ 0) {root : KheapRoot}
    (hroot : root.page = va) : (rootPages (Function.update roots r root)).Perm (rootPages roots ++ [va]) := by
  have hmem : r ∈ List.range 16 := List.mem_range.mpr hr
  have hnodup := List.nodup_range (n := 16)
  unfold rootPages
  obtain ⟨l₁, l₂, hl⟩ := List.append_of_mem hmem
  rw [hl] at hnodup ⊢
  rw [List.nodup_middle, List.nodup_cons] at hnodup
  have hother (l : List ℕ) (hsub : ∀ q ∈ l, q ∈ l₁ ++ l₂) :
      (l.map fun q => (Function.update roots r root q).page) = l.map fun q => (roots q).page := by
    refine List.map_congr_left fun q hq => ?_
    have hne : q ≠ r := fun he => hnodup.1 (he ▸ hsub q hq)
    rw [Function.update_of_ne hne]
  have h1 := hother l₁ fun q hq => List.mem_append_left _ hq
  have h2 := hother l₂ fun q hq => List.mem_append_right _ hq
  simp only [List.map_append, List.map_cons, List.filter_append, List.filter_cons, h1, h2, Function.update_self, h0,
    hroot]
  rw [if_pos (by simpa using hva), if_neg (by simp)]
  refine List.perm_middle.trans ?_
  exact (List.perm_append_singleton va _).symm

/-- The page of a thread becomes the page of a root. -/
theorem setRootPage (ph : Kphase) (h : KheapOwners X Y roots phase kpages addrs slots) (hr : r < 16)
    (hnum : (roots r).numinuse ≠ 0) (h0 : (roots r).page = 0) (hva : va ≠ 0) (hp : (phase t).pages.Perm (va :: ph.pages)) (he : ph.entry = (phase t).entry)
    (hroots : roots' = Function.update roots r { roots r with page := va }) :
    KheapOwners X Y roots' (Function.update phase t ph) kpages addrs slots := by
  have hentries := entriesOf_update_same slots he
  have hkeep {β : Type} (f : KheapRoot → β) (hf : f { roots r with page := va } = f (roots r)) (q : ℕ) :
      f (roots' q) = f (roots q) := by
    rw [hroots]
    by_cases hq : q = r
    · rw [hq, Function.update_self, hf]
    · rw [Function.update_of_ne hq]
  have hbits := hkeep KheapRoot.pagerefsInuse rfl
  refine ⟨?_, h.given, h.nodup, by rw [hentries]; exact h.entries, ?_, fun q hq => ?_, ?_, fun hY q hq hused p hp => ?_⟩
  · refine h.pages.transfer (p := .thread t) (q := .roots) (l := [va]) (by simp) ?_ ?_ fun o ho ho' => ?_
    · rw [pagesOf_update_self]
      exact hp
    · rw [hroots]
      exact rootPages_set hr h0 hva rfl
    · rw [pagesOf_update_of_ne ho]
      cases o <;> first | exact List.Perm.refl _ | contradiction
  · rw [hentries]
    intro o x hx
    rw [hbits]
    exact h.inuse o x hx
  · rw [hkeep KheapRoot.numinuse rfl, hbits]
    exact h.count q hq
  · rw [hentries]
    simp only [hbits]
    exact h.owned
  · -- the root of the new page had an entry in use before
    have hused' : (roots q).page ≠ 0 ∨ (roots q).numinuse ≠ 0 := by
      by_cases hqr : q = r
      · rw [hqr]
        exact Or.inr hnum
      · rw [hroots, Function.update_of_ne hqr] at hused
        exact hused
    by_cases hpr : p = r
    · rw [hroots, hpr, Function.update_self]
      exact hva
    · rw [hroots, Function.update_of_ne hpr]
      exact h.ordered hY q hq hused' p hp

theorem numinuse_pos (h : KheapOwners X Y roots phase kpages addrs slots) {o : HeapOwner}
    (hx : (r, j) ∈ entriesOf phase slots o) : 0 < (roots r).numinuse := by
  obtain ⟨hr, hj, hset⟩ := h.inuse o (r, j) hx
  rw [h.count r hr, List.countP_pos_iff]
  exact ⟨j, List.mem_range.mpr hj, hset⟩

/-- A page of the heap, all of it free, goes to a thread, and its entry is cleared. -/
theorem wholePage {A₁ A₂ : List ℕ} {S₁ S₂ : List (ℕ × ℕ)}
    (h : KheapOwners X Y roots phase kpages (A₁ ++ va :: A₂) (S₁ ++ (r, j) :: S₂)) (hp : (phase t).pages = [])
    (hp' : ph.pages = [va]) (he : ph.entry = (phase t).entry) (hroots : roots' = Function.update roots r
      { roots r with pagerefsInuse := Function.update (roots r).pagerefsInuse j false,
                     numinuse := (roots r).numinuse - 1 }) :
    KheapOwners X Y roots' (Function.update phase t ph) kpages (A₁ ++ A₂) (S₁ ++ S₂) := by
  have hmem : (r, j) ∈ entriesOf phase (S₁ ++ (r, j) :: S₂) .heap :=
    List.mem_append_right _ List.mem_cons_self
  obtain ⟨hr, hj, hset⟩ := h.inuse .heap _ hmem
  have hb := bit_set hroots
  have hentries := entriesOf_update_same (S₁ ++ S₂) he
  have hplaced : Placed (entriesOf phase (S₁ ++ S₂)) fun x => ∃ o, x ∈ entriesOf phase (S₁ ++ S₂) o := by
    refine (h.entries.remove (p := .heap) (t := (r, j)) List.perm_middle fun o ho => ?_).self
    cases o <;> first | exact List.Perm.refl _ | contradiction
  -- nobody else has the entry
  have hgone (o : HeapOwner) (x : ℕ × ℕ) (hx : x ∈ entriesOf phase (S₁ ++ S₂) o) :
      x ∈ entriesOf phase (S₁ ++ (r, j) :: S₂) o ∧ x ≠ (r, j) := by
    have hnodup := h.entries.nodup .heap
    change (S₁ ++ (r, j) :: S₂).Nodup at hnodup
    rw [List.nodup_middle, List.nodup_cons] at hnodup
    cases o with
    | heap =>
      refine ⟨?_, fun hxr => hnodup.1 (hxr ▸ hx)⟩
      change x ∈ S₁ ++ S₂ at hx
      change x ∈ S₁ ++ (r, j) :: S₂
      rw [List.mem_append] at hx
      rw [List.mem_append, List.mem_cons]
      tauto
    | roots => exact absurd hx List.not_mem_nil
    | thread u =>
      refine ⟨hx, fun hxr => ?_⟩
      exact absurd (h.entries.unique (.thread u) .heap x hx (hxr ▸ hmem)) (by simp)
  have hnum := h.numinuse_pos hmem
  refine ⟨?_, h.given, h.nodup, by rw [hentries]; exact hplaced, ?_, hb.count hj ?_ h.count, fun hX q hq l hl hon => ?_,
    fun hY q hq hused => ?_⟩
  · refine h.pages.transfer (p := .heap) (q := .thread t) (l := [va]) (by simp) ?_ ?_ fun o ho ho' => ?_
    · exact List.perm_middle
    · rw [pagesOf_update_self, hp', pagesOf, hp]
      rfl
    · rw [pagesOf_update_of_ne ho']
      cases o <;> first | contradiction | simp only [pagesOf, hb.rootPages, List.Perm.refl]
  · rw [hentries]
    intro o x hx
    obtain ⟨hx', hne⟩ := hgone o x hx
    rw [hb.bit x hne]
    exact h.inuse o x hx'
  · rw [hset, Bool.toNat_true, Bool.toNat_false]
    omega
  · have hne : (q, l) ≠ (r, j) := by
      intro heq
      obtain ⟨rfl, rfl⟩ := Prod.mk.inj heq
      rw [hb.self] at hon
      exact Bool.false_ne_true hon
    obtain ⟨o, ho⟩ := h.owned hX q hq l hl ((hb.bit (q, l) hne).symm.trans hon)
    rw [hentries]
    refine ⟨o, ?_⟩
    cases o with
    | heap =>
      change (q, l) ∈ S₁ ++ (r, j) :: S₂ at ho
      change (q, l) ∈ S₁ ++ S₂
      rw [List.mem_append, List.mem_cons] at ho
      rw [List.mem_append]
      exact ho.imp_right fun hcons => hcons.resolve_left hne
    | roots => exact ho
    | thread u => exact ho
  · simp only [hb.page] at hused ⊢
    apply h.ordered hY q hq
    apply hused.imp_right
    intro hnum hzero
    apply hnum
    by_cases hqr : q = r
    · rw [hqr] at hzero
      omega
    · rw [hb.other q hqr]
      exact hzero

/-! ### What the sections need to know -/

theorem mem_rootPages {q : ℕ} (hq : q < 16) (h0 : (roots q).page ≠ 0) : (roots q).page ∈ rootPages roots :=
  List.mem_filter.mpr ⟨List.mem_map.mpr ⟨q, List.mem_range.mpr hq, rfl⟩, by simpa using h0⟩

theorem rootsOk (h : KheapOwners X Y roots phase kpages addrs slots) {heap : Kheap} (hheap : heap.kheaproots = roots) :
    heap.RootsOk := by
  subst hheap
  have hgiven (q : ℕ) (hq : q < 16) (h0 : (heap.kheaproots q).page ≠ 0) :=
    h.given _ ((h.pages.cover _).mpr ⟨.roots, mem_rootPages hq h0⟩)
  refine ⟨fun q hq => ?_, fun q hq => ?_, fun q hq q' hq' h0 he => ?_⟩
  · by_cases h0 : (heap.kheaproots q).page = 0
    · rw [h0]
    · exact (hgiven q hq h0).2.1
  · by_cases h0 : (heap.kheaproots q).page = 0
    · rw [h0]
      decide
    · exact (hgiven q hq h0).2.2
  · have hnodup : (rootPages heap.kheaproots).Nodup := h.pages.nodup .roots
    unfold rootPages at hnodup
    rw [List.filter_map, List.nodup_map_iff_inj_on (List.nodup_range.filter _)] at hnodup
    refine hnodup q ?_ q' ?_ he
    · exact List.mem_filter.mpr ⟨List.mem_range.mpr hq, by simpa using h0⟩
    · exact List.mem_filter.mpr ⟨List.mem_range.mpr hq', by simpa using he ▸ h0⟩

end KheapOwners

end Os161
