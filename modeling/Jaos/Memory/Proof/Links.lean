import Jaos.Memory.FailedAlloc
import Jaos.Memory.Proof.Boot

/-!
# The tables that `create_page_for_current` links

`pageLinks`, `loopLinks` and `Call.links` list, for a state, the entries that a call makes lead to a
new table, each with the frame that `mem_alloc_block` returns for it; `bootLinks` lists those of
`memman_init`. `InPlace r`: the entry is on a way down from the root `r` and leads to its frame. A
call puts its links in place (`Good.mapPage_links`, `Good.allocFrom_links`) and what fills a page
leaves them there (`InPlace.after`).
-/

namespace Paging

open Lib Memman

/-- Entry `index` of the frame `table`, made to lead to `frame`. -/
structure Link where
  table : Nat
  index : Nat
  frame : Nat

/-- The list for the state that a function leads to. -/
def afterwards (o : Option Machine) (f : Machine → List Link) : List Link := o.elim [] f

/-- What `linkTable` links. -/
def tableLinks (a : Addr) (m : Machine) : List Link :=
  match locate a m with
  | some (f, i) =>
    if (m.phys f i).present then [] else [⟨f, i, (memAllocBlock m.frames).1 / 0x1000⟩]
  | none => []

/-- What `create_page_for_current` links. -/
def pageLinks (a : Addr) (user : Bool) (m : Machine) : List Link :=
  let entry4 := entryAt currentPml4 a.pml4
  let entry3 := entryAt currentPdp (a.pml4 * 512 + a.pdp)
  let entry2 := entryAt currentPd ((a.pml4 * 512 + a.pdp) * 512 + a.pd)
  tableLinks entry4 m ++ afterwards (linkTable entry4 user m) fun m =>
    tableLinks entry3 m ++ afterwards (linkTable entry3 user m) (tableLinks entry2)

/-- What the loop of `alloc_page` and `alloc_kernel_page` links. -/
def loopLinks (address : Nat → Addr) (user : Bool) : (k i : Nat) → Machine → List Link
  | 0, _, _ => []
  | k + 1, i, m =>
    let r := memAllocBlock m.frames
    let m := { m with frames := r.2 }
    if r.1 = 0 then []
    else
      pageLinks (address i) user m ++ afterwards ((createPageForCurrent (address i) user m).bind fun p =>
        writeFields p.1 [.setPresent true, .setUser user, .setRw true, .setFrame (r.1 / 0x1000)] p.2)
        (loopLinks address user k (i + 1))

def Call.links : Call → Machine → List Link
  | page virtual size, m =>
    loopLinks (fun i => add64 virtual (i * 0x1000)) true (pageCount size) 0 m
  | kernelPages size, m =>
    loopLinks (fun i => add64 m.nextBlock i * 0x1000 % 2 ^ 64) false size 0
      { m with log := .pages m.nextBlock size :: m.log }

/-- The pages of the image, as `memman_init` maps them. -/
def imagePage (i : Nat) : Machine → Option Machine :=
  initPage (0xC0000000 + i * 0x1000) ((0x200000 + i * 0x1000) / 0x1000)

def imageLinks : (k i : Nat) → Machine → List Link
  | 0, _, _ => []
  | k + 1, i, m =>
    pageLinks (0xC0000000 + i * 0x1000) false m ++ afterwards (imagePage i m) (imageLinks k (i + 1))

/-- `initPaging` up to its loop. -/
def initRoot (m : Machine) : Option Machine :=
  let r := memAllocBlock m.frames
  let pml4New := r.1 / 0x1000
  let m := { m with frames := r.2, log := .table (getPml4Entry 511) pml4New (m.phys pml4New) :: m.log }
  (writeLow m.cr3 511 (selfFields pml4New) m).bind (writeLow pml4New 511 (selfFields pml4New))

/-- What `initPaging` links. -/
def initLinks (blocks : Nat) (m : Machine) : List Link :=
  afterwards (initRoot m) fun m =>
    imageLinks blocks 0 m ++ afterwards (loop imagePage blocks 0 m) fun m =>
      pageLinks 0xFFFFF000 false m ++ afterwards (initPage 0xFFFFF000 8 m) fun m =>
        pageLinks (m.nextBlock * 0x1000 % 2 ^ 64) false m

/-- What `memman_init` links. -/
def bootLinks (kernelEnd : Nat) (memoryMap : List MemoryRegion) (memory : Words) (phys : Phys)
    (cr3 : Nat) : List Link :=
  let frames := Memman.memmanInit kernelEnd memoryMap memory
  let blocks := blocksUsedByKernel kernelEnd frames.maxBlocks
  initLinks blocks
    { phys, cr3, frames, nextBlock := add64 (0xC0000000 / 0x1000) blocks, log := [] }

/-- The entry is on a way down from the root `r`, is not the one that leads back to it, and leads to
the frame of the link. -/
structure InPlace (r : Nat) (m : Machine) (l : Link) (js : List Nat) : Prop where
  length : js.length ≤ 2
  index : ∀ i ∈ js ++ [l.index], i < 512
  head : (js ++ [l.index]).head? ≠ some 511
  table : walk (next m.phys) r js = some l.table
  leads : next m.phys l.table l.index = some l.frame

/-- All links are in place, and no frame is the null frame. -/
def LinksOk (r : Nat) (m : Machine) (ls : List Link) : Prop :=
  ∀ l ∈ ls, l.frame ≠ 0 ∧ ∃ js, InPlace r m l js

section
variable {T : Nat → Prop} {s s' : Shape} {m m' m1 m2 : Machine} {r f i : Nat} {a p : Addr}
  {user : Bool} {l : Link} {ls ls' : List Link} {is js : List Nat}

theorem LinksOk.append (h : LinksOk r m ls) (h' : LinksOk r m ls') : LinksOk r m (ls ++ ls') :=
  fun l hl => (List.mem_append.1 hl).elim (h l) (h' l)

theorem LinksOk.nil : LinksOk r m [] := fun _ hl => by cases hl

/-! ## Links stay in place -/

/-- More links. -/
theorem InPlace.mono (h : InPlace r m l js)
    (hE : ∀ v j w, next m.phys v j = some w → next m'.phys v j = some w) : InPlace r m' l js :=
  ⟨h.length, h.index, h.head, walk_mono hE h.table, hE _ _ _ h.leads⟩

theorem LinksOk.mono (h : LinksOk r m ls)
    (hE : ∀ v j w, next m.phys v j = some w → next m'.phys v j = some w) : LinksOk r m' ls :=
  fun l hl => ⟨(h l hl).1, (h l hl).2.imp fun _ hin => hin.mono hE⟩

/-- The table of a link, by its place. -/
theorem InPlace.place (h : InPlace r m l js) (G : Good s m) (hr : s.place r = some (.root r)) :
    s.place l.table = some ((Place.root r).along js) ∧
      ∀ E' T, Keeps s T (next m.phys) E' → walk E' r js = some l.table := by
  refine G.forest.walk_place hr ?_ (fun i hi => h.index i (List.mem_append_left _ hi))
    (fun _ hhead => ?_) h.table
  · show js.length < 4
    have := h.length
    omega
  · apply h.head
    cases js with
    | nil => cases hhead
    | cons j js => exact hhead

/-- **What keeps the tables keeps the links.** -/
theorem InPlace.after (h : InPlace r m l js) (G : Good s m) (hr : s.place r = some (.root r))
    (hk : Keeps s T (next m.phys) (next m'.phys)) : InPlace r m' l js := by
  obtain ⟨hplace, hwalk⟩ := h.place G hr
  refine ⟨h.length, h.index, h.head, hwalk _ T hk, hk _ _ _ _ hplace (.inl ?_) h.leads⟩
  have hlevel := (Place.root r).along_level js
  have hlen := h.length
  rw [show (Place.root r).level = 4 from rfl] at hlevel
  omega

theorem LinksOk.after (h : LinksOk r m ls) (G : Good s m) (hr : s.place r = some (.root r))
    (hk : Keeps s T (next m.phys) (next m'.phys)) : LinksOk r m' ls :=
  fun l hl => ⟨(h l hl).1, (h l hl).2.imp fun _ hin => hin.after G hr hk⟩

/-! ## The links of one page -/

/-- The links of `linkPath`. -/
def pathLinks (user : Bool) : (l q f : Nat) → (is : List Nat) → Machine → List Link
  | _, _, _, [], _ => []
  | l, q, f, i :: is, m =>
    let m' := linkAt user (tableEntry (l - 1) (q * 512 + i)) f i m
    (if (m.phys f i).present then [] else [⟨f, i, (memAllocBlock m.frames).1 / 0x1000⟩]) ++
      pathLinks user (l - 1) (q * 512 + i) (target m'.phys f i) is m'

theorem tableLinks_eq (h : locate a m = some (f, i)) : tableLinks a m =
    if (m.phys f i).present then [] else [⟨f, i, (memAllocBlock m.frames).1 / 0x1000⟩] := by
  unfold tableLinks
  rw [h]

theorem pageLinks_eq (h : Window m r) (a : Addr) (user : Bool) :
    pageLinks a user m = pathLinks user 4 0 r a.path m := by
  obtain ⟨h4, h3, h2, -⟩ := a.index_lt
  have w1 := @next_linkAt m (entryAt currentPml4 a.pml4) user r a.pml4
  have win1 := h.linkAt user (entryAt currentPml4 a.pml4) r a.pml4
  have l1 := locate_pdp win1 h4 h3
  rw [walk_cons w1, walk_nil, Option.map_some] at l1
  have win2 := win1.linkAt user (entryAt currentPdp (a.pml4 * 512 + a.pdp))
    (target (linkAt user (entryAt currentPml4 a.pml4) r a.pml4 m).phys r a.pml4) a.pdp
  have l2 := locate_pd win2 h4 h3 h2
  rw [walk_cons (linkAt_mono _ _ _ w1), walk_cons next_linkAt, walk_nil, Option.map_some] at l2
  have l0 := locate_pml4 h h4
  unfold pageLinks afterwards
  dsimp only
  rw [linkTable_eq l0, Option.elim_some, linkTable_eq l1, Option.elim_some, tableLinks_eq l0,
    tableLinks_eq l1, tableLinks_eq l2]
  simp only [Addr.path, pathLinks, tableEntry, Nat.zero_mul, Nat.zero_add, List.append_nil]

/-- A link gets the frame that `mem_alloc_block` returns, and the history says so. -/
theorem linkAt_links (hsize : m.frames.maxBlocks ≤ 2 ^ 40) (hp : ¬ (m.phys f i).present) :
    next (linkAt user a f i m).phys f i = some ((memAllocBlock m.frames).1 / 0x1000) ∧
      ∃ old, Event.table a ((memAllocBlock m.frames).1 / 0x1000) old ∈ (linkAt user a f i m).log := by
  have hlt : (memAllocBlock m.frames).1 / 0x1000 < 2 ^ 40 := by
    rcases allocBlock_spec m.frames with h0 | ⟨n, -, hlt, -, haddr, -⟩
    · rw [h0, Nat.zero_div]
      exact Nat.two_pow_pos 40
    · rw [haddr, Nat.mul_div_cancel _ (show 0 < memBlockSize by decide)]
      exact Nat.lt_of_lt_of_le hlt hsize
  unfold linkAt
  rw [if_neg hp]
  exact ⟨next_setEntry_same ⟨rfl, (BitVec.toNat_ofNat _ _).trans (Nat.mod_eq_of_lt hlt)⟩, _,
    List.mem_cons_self⟩

theorem linkAt_maxBlocks : (linkAt user a f i m).frames.maxBlocks = m.frames.maxBlocks := by
  unfold linkAt
  split
  · rfl
  · rcases allocBlock_spec m.frames with h0 | ⟨n, -, -, -, -, hmax, -⟩
    · rw [h0]
    · exact hmax

theorem linkPath_log {l q : Nat} : m.log <:+ (linkPath user l q f is m).log :=
  linkPath_rule (P := fun m' => m.log <:+ m'.log) List.suffix_rfl
    fun _ _ _ _ _ _ _ h => h.trans linkAt_log

/-- **The links of a path** are on the path, lead to their frames and are in the history. -/
theorem mem_pathLinks {n q : Nat} (hsize : m.frames.maxBlocks ≤ 2 ^ 40)
    (hl : l ∈ pathLinks user n q f is m) :
    (∃ js ks, is = js ++ l.index :: ks ∧
      walk (next (linkPath user n q f is m).phys) f js = some l.table) ∧
      next (linkPath user n q f is m).phys l.table l.index = some l.frame ∧
      ∃ e old, Event.table e l.frame old ∈ (linkPath user n q f is m).log := by
  induction is generalizing n q f m with
  | nil => cases hl
  | cons i is ih =>
    rcases List.mem_append.1 hl with hl | hl
    · -- the first link of the path
      split at hl
      · cases hl
      · rename_i hp
        obtain rfl := List.mem_singleton.1 hl
        let m1 := linkAt user (tableEntry (n - 1) (q * 512 + i)) f i m
        obtain ⟨hnext, old, hlog⟩ :=
          @linkAt_links m f i (tableEntry (n - 1) (q * 512 + i)) user hsize hp
        exact ⟨⟨[], is, rfl, rfl⟩, linkPath_mono (m := m1) _ _ _ hnext, _, old,
          (linkPath_log (m := m1)).subset hlog⟩
    · obtain ⟨⟨js, ks, rfl, hw⟩, hnext, hlog⟩ := ih (by rw [linkAt_maxBlocks]; exact hsize) hl
      refine ⟨⟨i :: js, ks, rfl, ?_⟩, hnext, hlog⟩
      exact (walk_cons (linkPath_mono _ _ _ next_linkAt)).trans hw

/-- **`create_page_for_current`** puts its links in place. -/
theorem pageLinks_ok (h : Window m r) (hsize : m.frames.maxBlocks ≤ 2 ^ 40) (ha : a.pml4 ≠ 511)
    (hc : createPageForCurrent a user m = some (p, m1)) (hlog : ∀ e ∈ m1.log, e.Ok) :
    LinksOk r m1 (pageLinks a user m) := by
  intro l hl
  rw [createPage_eq h a user] at hc
  cases hc
  rw [pageLinks_eq h] at hl
  obtain ⟨⟨js, ks, hpath, hw⟩, hnext, _, old, hevent⟩ := mem_pathLinks hsize hl
  have hne : l.frame ≠ 0 := (hlog _ hevent).1
  have hlen := congrArg List.length hpath
  rw [List.length_append, List.length_cons, show a.path.length = 3 from rfl] at hlen
  have hsplit : a.path = (js ++ [l.index]) ++ ks := by
    rw [hpath, List.append_assoc, List.singleton_append]
  refine ⟨hne, js, by omega, fun i hi => ?_, fun hhead => ?_, hw, hnext⟩
  · exact a.path_lt i (hsplit ▸ List.mem_append_left _ hi)
  · have hfirst : a.path.head? = some 511 := by
      rw [hsplit, List.head?_append, hhead]
      rfl
    exact ha (Option.some.inj hfirst)

theorem createPage_mono (h : Window m r) (hc : createPageForCurrent a user m = some (p, m1))
    (v j w : Nat) (hn : next m.phys v j = some w) : next m1.phys v j = some w := by
  rw [createPage_eq h a user] at hc
  cases hc
  exact linkPath_mono v j w hn

/-- **One page mapped**: the links stay in place, and its own are added. -/
theorem Good.mapPage_links {gs : List (Entry → Entry)} {n : Nat} (G : Good s m) (h : Current s m r)
    (hn : s.held n) (ha : a.pml4 ≠ 511)
    (hgs : ∀ e : Entry, (gs.foldl (fun e g => g e) e).present = true ∧
      (gs.foldl (fun e g => g e) e).frame.toNat = n ∧ (gs.foldl (fun e g => g e) e).rest = e.rest)
    (hc : createPageForCurrent a user m = some (p, m1)) (hw : writeFields p gs m1 = some m2)
    (hlog : ∀ e ∈ m2.log, e.Ok) (hls : LinksOk r m ls) :
    LinksOk r m2 (pageLinks a user m ++ ls) := by
  rw [writeFields_log hw] at hlog
  have hnew := pageLinks_ok h.window G.size ha hc hlog
  have hold := hls.mono (createPage_mono h.window hc)
  rw [createPage_eq h.window a user] at hc
  cases hc
  obtain ⟨s1, G1, A1⟩ := G.linkPath (T := fun _ => True) h.place ha hlog
  obtain ⟨t, ht⟩ := @walk_linkPath m 4 0 r user a.path
  have h1 := h.after A1
  generalize Paging.linkPath user 4 0 r a.path m = m1 at *
  obtain ⟨phys, -, hfill, -, A2, -⟩ := G1.fill h1 (A1.held n hn) ha hgs ht
  rw [hfill] at hw
  cases hw
  exact (hnew.append hold).after G1 h1.place (A2 (fun _ => True) trivial).keeps

/-! ## The loop of `alloc_page` and `alloc_kernel_page` -/

/-- What the loop writes into the entry of a page. -/
theorem pageEntry_spec {n : Nat} (hn : n < 2 ^ 40) (user : Bool) (e : Entry) :
    ([Entry.setPresent true, .setUser user, .setRw true, .setFrame n].foldl
      (fun e g => g e) e).present = true ∧
    ([Entry.setPresent true, .setUser user, .setRw true, .setFrame n].foldl
      (fun e g => g e) e).frame.toNat = n ∧
    ([Entry.setPresent true, .setUser user, .setRw true, .setFrame n].foldl
      (fun e g => g e) e).rest = e.rest :=
  ⟨rfl, (BitVec.toNat_ofNat _ _).trans (Nat.mod_eq_of_lt hn), rfl⟩

theorem Good.allocFrom_links {address : Nat → Addr} {ok : Bool} {k : Nat} (G : Good s m)
    (h : Current s m r) (ha : ∀ j, i ≤ j → j < i + k → (address j).pml4 ≠ 511)
    (hrun : Paging.allocFrom address user k i m = some (ok, m')) (hlog : ∀ e ∈ m'.log, e.Ok)
    (hls : LinksOk r m ls) : LinksOk r m' (loopLinks address user k i m ++ ls) := by
  induction k generalizing i s m ls with
  | zero =>
    cases hrun
    exact hls
  | succ k ih =>
    unfold Paging.allocFrom at hrun
    unfold loopLinks
    dsimp only at hrun ⊢
    rcases G.allocBlock with ⟨h0, hf⟩ | ⟨n, hn0, hn, haddr, -, hheld, G1⟩
    · rw [if_pos h0, hf] at hrun
      rw [if_pos h0]
      cases hrun
      exact hls
    · have hne : (memAllocBlock m.frames).1 ≠ 0 := by
        rw [haddr]
        omega
      rw [if_neg hne] at hrun ⊢
      obtain ⟨⟨p, m2⟩, hc, hrun⟩ := Option.bind_eq_some_iff.1 hrun
      obtain ⟨m3, hw, hrun⟩ := Option.bind_eq_some_iff.1 hrun
      have hlog3 : ∀ e ∈ m3.log, e.Ok := fun e he => hlog e ((allocFrom_log hrun).subset he)
      have h1 : Current (s.hold n) { m with frames := (memAllocBlock m.frames).2 } r :=
        ⟨h.place, ⟨h.window.root, h.window.loop⟩, h.cr3.imp id .inr⟩
      have hframe : (memAllocBlock m.frames).1 / 0x1000 = n := by
        rw [haddr, Nat.mul_div_cancel _ (by decide)]
      rw [hc, Option.bind_some, hframe]
      rw [hframe] at hw
      have hai := ha i (Nat.le_refl _) (by omega)
      have hls3 := G1.mapPage_links h1 (.inl rfl) hai (pageEntry_spec hn user) hc hw hlog3
        (hls.mono fun _ _ _ h => h)
      obtain ⟨s1, G3, A, -, -⟩ := G1.mapPage (T := fun _ => True) h1 (.inl rfl) hai trivial
        (pageEntry_spec hn user) hc hw hlog3
      have h3 : Current (s1.drop n) m3 r := h.after (A.mapped hheld)
      have hrest := ih G3 h3 (fun j h1 h2 => ha j (by omega) (by omega)) hrun hls3
      rw [hw]
      intro l hl
      refine hrest l ?_
      simp only [afterwards, Option.elim_some, List.mem_append] at hl ⊢
      rcases hl with (hl | hl) | hl
      · exact .inr (.inl hl)
      · exact .inl hl
      · exact .inr (.inr hl)

/-- **A call keeps the links in place** and adds its own. -/
theorem Good.call_links {c : Call} (G : Good s m) (h : Current s m r)
    (hout : ∀ virtual size, c = .page virtual size → UserRange virtual size)
    (hrun : c.run m = some (p, m')) (hlog : ∀ e ∈ m'.log, e.Ok) (hls : LinksOk r m ls) :
    LinksOk r m' (c.links m ++ ls) := by
  cases c with
  | page virtual size =>
    obtain ⟨⟨ok, m1⟩, hfrom, he⟩ := Option.map_eq_some_iff.1 hrun
    cases he
    have hu := hout virtual size rfl
    exact G.allocFrom_links h (fun j _ hj => hu j (by rwa [Nat.zero_add] at hj)) hfrom hlog hls
  | kernelPages size =>
    obtain ⟨⟨ok, m1⟩, hfrom, he⟩ := Option.map_eq_some_iff.1 hrun
    have hm1 : m1.log = m'.log ∧ m1.phys = m'.phys := by
      dsimp only at he
      split at he <;> cases he <;> exact ⟨rfl, rfl⟩
    rw [← hm1.1] at hlog
    have hle : m.nextBlock + size ≤ windowPage :=
      hlog (.pages m.nextBlock size) ((allocFrom_log hfrom).subset List.mem_cons_self)
    have G0 : Good s { m with log := .pages m.nextBlock size :: m.log } :=
      ⟨G.forest, G.linked, G.size, G.plain.keep (List.suffix_cons _ _) fun _ _ _ _ h => h⟩
    have h0 : Current s { m with log := .pages m.nextBlock size :: m.log } r :=
      ⟨h.place, ⟨h.window.root, h.window.loop⟩, h.cr3⟩
    have hnew := G0.allocFrom_links h0 (fun j _ hj => by
      rw [Nat.zero_add] at hj
      rw [show add64 _ j * 0x1000 % 2 ^ 64 = _ from kernelPage_eq (i := j) (by omega)]
      exact (page_frame (by omega)).2) hfrom hlog (hls.mono fun _ _ _ h => h)
    refine hnew.mono fun v j w hn => ?_
    rwa [← hm1.2]

/-! ## `memman_init` -/

variable {b : Prop} {nb : Nat} {H : Nat → Prop}

theorem Booting.initPage_links (B : Booting b r nb H s m) (hf : H f) (hlt : f < 2 ^ 40)
    (ha : a.pml4 ≠ 511) (h : Paging.initPage a f m = some m') (fine : Fine m'.log)
    (hls : LinksOk r m ls) : LinksOk r m' (pageLinks a false m ++ ls) := by
  obtain ⟨⟨p, m1⟩, hc, hw⟩ := Option.bind_eq_some_iff.1 h
  have hcur : Current s m r :=
    ⟨B.place, B.window, .inr (by rw [B.cr3]; exact B.held _ (.inl rfl))⟩
  exact B.good.mapPage_links hcur (B.held f (.inr hf)) ha (initFields_spec hlt) hc hw fine.ok hls

theorem Booting.image_links {blocks k : Nat} (B : Booting b r nb (Pending blocks i) s m)
    (hi : i + k = blocks) (hblocks : blocks ≤ 2 ^ 27) (h : loop imagePage k i m = some m')
    (fine : Fine m'.log) (hls : LinksOk r m ls) : LinksOk r m' (imageLinks k i m ++ ls) := by
  induction k generalizing i s m ls with
  | zero =>
    cases h
    exact hls
  | succ k ih =>
    obtain ⟨m1, h1, h⟩ := Option.bind_eq_some_iff.1 h
    have hframe : (0x200000 + i * 0x1000) / 0x1000 = 0x200 + i := by omega
    have ha : Addr.pml4 (0xC0000000 + i * 0x1000) ≠ 511 := by
      unfold Addr.pml4
      omega
    have fine1 : Fine m1.log := fine.before (image_log h)
    have hpend : Pending blocks i (0x200 + i) := .inr (.inr ⟨Nat.le_refl _, by omega⟩)
    unfold imageLinks
    rw [h1]
    unfold imagePage at h1
    rw [hframe] at h1
    have hls1 := B.initPage_links hpend (by omega) ha h1 fine1 hls
    obtain ⟨s1, B1, -, -, -⟩ := B.initPage hpend (by unfold loaderPml4; omega) (by omega) ha h1 fine1
    have B1' : Booting b r nb (Pending blocks (i + 1)) s1 m1 := B1.fewer fun n hn => by
      unfold Pending at hn ⊢
      omega
    have hrest := ih B1' (by omega) h hls1
    intro l hl
    refine hrest l ?_
    simp only [afterwards, Option.elim_some, List.mem_append] at hl ⊢
    rcases hl with (hl | hl) | hl
    · exact .inr (.inl hl)
    · exact .inl hl
    · exact .inr (.inr hl)

theorem initPaging_links {kernelEnd maxBlocks blocks : Nat}
    (G : Good (bootShape b kernelEnd maxBlocks) m) (hcr3 : m.cr3 = loaderPml4)
    (hlog : Paging.blocks m.log = []) (hnb : m.nextBlock = 0xC0000 + blocks)
    (hblocks : blocksUsedByKernel kernelEnd maxBlocks = blocks) (hlt : blocks ≤ 2 ^ 27)
    (h : initPaging blocks m = some m') (fine : Fine m'.log) :
    LinksOk m'.cr3 m' (initLinks blocks m) := by
  unfold initPaging at h
  dsimp only at h
  obtain ⟨m2, h2, h⟩ := Option.bind_eq_some_iff.1 h
  obtain ⟨m3, h3, h⟩ := Option.bind_eq_some_iff.1 h
  obtain ⟨m4, h4, h⟩ := Option.bind_eq_some_iff.1 h
  obtain ⟨m5, h5, h⟩ := Option.bind_eq_some_iff.1 h
  obtain ⟨m6, h6, rfl⟩ := Option.map_eq_some_iff.1 h
  have fine6 : Fine m6.log := fine
  have fine5 := fine6.before (initPage_log h6)
  have fine4 := fine5.before (initPage_log h5)
  have hroot : initRoot m = some m3 := by
    unfold initRoot
    dsimp only
    rw [show writeLow _ 511 (selfFields _) _ = some m2 from h2, Option.bind_some]
    exact h3
  have h4' : loop imagePage blocks 0 m3 = some m4 := h4
  obtain ⟨haddr, s3, B3⟩ := Booting.root G hcr3 hlog rfl rfl h2 h3 (fine4.before (image_log h4))
  generalize (memAllocBlock m.frames).1 / 0x1000 = new at haddr B3
  have hcr3 : (switchPaging (memAllocBlock m.frames).1
      { m6 with nextBlock := add64 m6.nextBlock 1 }).cr3 = new := by
    rw [haddr]
    exact Nat.mul_div_cancel _ (by decide)
  rw [hcr3]
  have hpending : ∀ n, Pending blocks 0 n → KernelBlock kernelEnd maxBlocks n := fun n hn => by
    unfold Pending at hn
    unfold KernelBlock
    rw [hblocks]
    omega
  have hls4 := (B3.fewer hpending).image_links (Nat.zero_add _) hlt h4' fine4
    (show LinksOk _ _ [] from .nil)
  obtain ⟨s4, B4⟩ := (B3.fewer hpending).image (Nat.zero_add _) hlt h4 fine4
  have hls5 := B4.initPage_links (.inl rfl) (by decide) (by decide) h5 fine5 hls4
  obtain ⟨s5, B5, -⟩ := B4.initPage (.inl rfl) (by decide) (by decide) (by decide) h5 fine5
  have hnb5 : m5.nextBlock = 0xC0000 + blocks := B5.nextBlock.trans hnb
  have h4 : Addr.pml4 (m5.nextBlock * 0x1000 % 2 ^ 64) ≠ 511 := by
    rw [hnb5]
    unfold Addr.pml4
    omega
  have hls6 := B5.initPage_links ⟨by decide, .inr (.inl rfl)⟩ (by decide) h4 h6 fine6 hls5
  have hls : LinksOk new (switchPaging (memAllocBlock m.frames).1
      { m6 with nextBlock := add64 m6.nextBlock 1 }) _ := hls6.mono fun _ _ _ h => h
  intro l hl
  refine hls l ?_
  unfold initLinks at hl
  rw [hroot] at hl
  simp only [afterwards, Option.elim_some, h4', h5, List.mem_append] at hl ⊢
  rcases hl with hl | hl | hl
  · exact .inr (.inr (.inl hl))
  · exact .inr (.inl hl)
  · exact .inl hl

/-- **`memman_init`** puts its links in place. -/
theorem boot_links {kernelEnd : Nat} {memoryMap : List MemoryRegion} {memory : Words} {phys : Phys}
    (hb : Machine.Boot kernelEnd memoryMap)
    (h : Paging.memmanInit kernelEnd memoryMap memory phys loaderPml4 = some m) (fine : Fine m.log) :
    LinksOk m.cr3 m (bootLinks kernelEnd memoryMap memory phys loaderPml4) := by
  have inv := inv_init memory hb.toBoot
  have hlt := kernelBlocks_lt hb
  have hmax := inv.max
  have hsize := hb.phys52
  have hkernel := inv.kernel
  unfold Paging.memmanInit at h
  unfold bootLinks
  dsimp only at h hmax hkernel ⊢
  rw [hmax] at h ⊢
  generalize hb' : limit memoryMap / memBlockSize = maxBlocks at *
  generalize hk' : blocksUsedByKernel kernelEnd maxBlocks = blocks at *
  generalize Memman.memmanInit kernelEnd memoryMap memory = frames at *
  dsimp only [memBlockSize] at hb'
  exact initPaging_links (b := True) (bootShape_good (by dsimp only; omega) hkernel) rfl rfl
    (add64_of_lt (by omega)) hk' hlt h fine

end

end Paging
