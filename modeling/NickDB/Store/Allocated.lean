import NickDB.Store.Blank
import NickDB.Store.Completed

/-!
# Allocations that fail

The pages of a store that are not free are allocated.  Which pages these are
follows from the three words of the metadata page and the link words of the free
pages.  A call of `alloc_page` that fails may have written some of the bytes of
two pages before, and nothing takes them back.  This module says for which
transfers such a call leaves the same pages allocated.
-/

namespace NickDB

open Linked

/-- The image is that of a store of the same size with the same free pages, in
whatever order. -/
def SameAllocated (image' : ByteFile UInt8) (size : ℕ) (free : List ℕ) :
    Prop :=
  ∃ free', StoreAt image' size free' ∧ ∀ k, k ∈ free' ↔ k ∈ free

/-- The words that the store reads off its metadata page are the same. -/
structure SameWords (metadata metadata' : Page) : Prop where
  size : metaSize metadata' = metaSize metadata
  head : freelistHead metadata' = freelistHead metadata
  tail : freelistTail metadata' = freelistTail metadata

/-- The first `m` bytes of a page, written over the page number `j`, change no
word of the metadata page and no link word of a free page. -/
structure KeepsWords (image : ByteFile UInt8) (free : List ℕ) (j : ℕ)
    (page : Page) (m : ℕ) : Prop where
  metadata : j = 0 → SameWords (pageAt image 0)
    (Words.overlay (pageAt image 0) page m)
  link : j ∈ free → linkWord (Words.overlay (pageAt image j) page m) =
    linkWord (pageAt image j)

/-- The transfer number `n` of those to come moves a whole link word. -/
def LinkCompletes (schedule : List Transfer) (n : ℕ) : Prop :=
  (schedule[n]?.getD Transfer.full).count 8 = some 8

/-- All transfers of an allocation without contents complete: the metadata page
and the link word of the first free page, if there is one, are read, and a page
of zeros and the metadata page are written. -/
def AllocCompletes (image : ByteFile UInt8) (schedule : List Transfer) :
    List ℕ → Prop
  | [] => Completes schedule 0 ∧
      ¬indexToOffset (metaSize (pageAt image 0)) < 0 ∧
      Completes schedule 1 ∧ Completes schedule 2
  | k :: _ => Completes schedule 0 ∧ LinkCompletes schedule 1 ∧
      ¬indexToOffset (pageOffset k) < 0 ∧
      Completes schedule 2 ∧ Completes schedule 3

/-- The bytes that are written before a transfer fails or stops short change no
word that the allocated pages follow from. -/
def AllocSpares (image : ByteFile UInt8) (schedule : List Transfer) :
    List ℕ → Prop
  | [] => ¬Completes schedule 0 ∨
      indexToOffset (metaSize (pageAt image 0)) < 0 ∨ ¬Completes schedule 1 ∨
      SameWords (pageAt image 0) (Words.overlay (pageAt image 0)
        (setSize (pageAt image 0) (metaSize (pageAt image 0) + 1))
        (moved schedule 2))
  | k :: rest => ¬Completes schedule 0 ∨ ¬LinkCompletes schedule 1 ∨
      indexToOffset (pageOffset k) < 0 ∨
      ∃ j, j < pageLimit ∧ indexToOffset (pageOffset k) = pageOffset j ∧
        (¬Completes schedule 2 →
          KeepsWords image (k :: rest) j blankPage (moved schedule 2)) ∧
        (Completes schedule 2 → j ≠ 0 ∧ j ∉ k :: rest ∧
          SameWords (pageAt image 0) (Words.overlay (pageAt image 0)
            (popHead (pageAt image 0) (linkWord (pageAt image k)))
            (moved schedule 3)))

variable {image image' : ByteFile UInt8} {schedule : List Transfer}
  {size j k m : ℕ} {free rest : List ℕ} {page : Page}

/-! ## Stores with the same free pages -/

theorem SameWords.refl (page : Page) : SameWords page page := ⟨rfl, rfl, rfl⟩

/-- A store follows from the words that are read off it. -/
theorem StoreAt.of_words (h : StoreAt image size free)
    (hlen : image.length ≤ image'.length)
    (hmeta : SameWords (pageAt image 0) (pageAt image' 0))
    (hlink : ∀ k ∈ free,
      linkWord (pageAt image' k) = linkWord (pageAt image k)) :
    StoreAt image' size free where
  size_pos := h.size_pos
  size_le := h.size_le
  meta_size := hmeta.size.trans h.meta_size
  in_file := h.in_file.trans hlen
  freelist := h.freelist.frame hlen hmeta.head hmeta.tail hlink
  free_lt := h.free_lt

theorem StoreAt.same (h : StoreAt image size free) :
    SameAllocated image size free :=
  ⟨free, h, fun _ => Iff.rfl⟩

/-- The link words as a chain. -/
theorem StoreAt.chain (h : StoreAt image size free) :
    Chain (nextFree image) (linkTarget (freelistHead (pageAt image 0)))
      (free.map pageOffset) :=
  h.freelist.path

theorem StoreAt.perm {free' : List ℕ} (h : StoreAt image size free)
    (h' : StoreAt image' size free') (hmem : ∀ k, k ∈ free' ↔ k ∈ free) :
    (free'.map pageOffset).Perm (free.map pageOffset) := by
  apply List.Perm.map
  exact (List.perm_ext_iff_of_nodup h'.freelist.nodup h.freelist.nodup).mpr
    hmem

/-- The list of free pages is read off the image. -/
theorem StoreAt.free_unique {free' : List ℕ} (h : StoreAt image size free)
    (h' : StoreAt image size free') (hk : k ∈ free) : k ∈ free' := by
  have hlimit : k < pageLimit := h.freelist.limit k hk
  rw [h'.freelist.mem_iff_reaches hlimit,
    ← h.freelist.mem_iff_reaches hlimit]
  exact hk

/-- If the link words are the same and the same pages are free, the words of the
metadata page are the same. -/
theorem StoreAt.sameWords {free' : List ℕ} (h : StoreAt image size free)
    (h' : StoreAt image' size free') (hmem : ∀ k, k ∈ free' ↔ k ∈ free)
    (hlink : ∀ k ∈ free,
      linkWord (pageAt image' k) = linkWord (pageAt image k)) :
    SameWords (pageAt image 0) (pageAt image' 0) := by
  have hchain' := h'.chain
  have hsame := nextFree_congr h.freelist.limit hlink
  have hhead := h.chain.start_eq hchain' (h.perm h' hmem) hsame
  have hlist : free'.map pageOffset = free.map pageOffset := by
    rw [hhead] at hchain'
    exact hchain'.unique (h.chain.congr hsame)
  refine ⟨h'.meta_size.trans h.meta_size.symm, linkTarget_inj.mp hhead, ?_⟩
  rw [← linkTarget_inj, h'.freelist.tail, h.freelist.tail, hlist]

/-- Link words that are overwritten with zeros are missed. -/
theorem StoreAt.sameWords_of_zero {free' : List ℕ}
    (h : StoreAt image size free) (h' : StoreAt image' size free')
    (hmem : ∀ k, k ∈ free' ↔ k ∈ free)
    (hlink : ∀ k ∈ free,
      linkWord (pageAt image' k) = linkWord (pageAt image k) ∨
        linkWord (pageAt image' k) = 0) :
    SameWords (pageAt image 0) (pageAt image' 0) := by
  apply h.sameWords h' hmem
  intro k hk
  apply (hlink k hk).resolve_right
  exact h'.linkWord_ne_zero ((hmem k).mpr hk)

/-- If all link words but one are the same and the same pages are free, that one
is the same. -/
theorem StoreAt.sameLink {free' : List ℕ} (h : StoreAt image size free)
    (h' : StoreAt image' size free') (hmem : ∀ k, k ∈ free' ↔ k ∈ free)
    (hhead : freelistHead (pageAt image' 0) = freelistHead (pageAt image 0))
    (hj : j ∈ free) (hlink : ∀ k ∈ free, k ≠ j →
      linkWord (pageAt image' k) = linkWord (pageAt image k)) :
    linkWord (pageAt image' j) = linkWord (pageAt image j) := by
  have hlimit := h.freelist.limit
  have hchain' := h'.chain
  rw [hhead] at hchain'
  have hnext := h.chain.link_eq hchain' (h.perm h' hmem)
    (List.mem_map_of_mem hj) (by
      intro offset hoffset hne
      obtain ⟨k, hk, rfl⟩ := List.mem_map.mp hoffset
      have hkj : k ≠ j := fun heq => hne (heq ▸ rfl)
      rw [nextFree_pageOffset (hlimit k hk), nextFree_pageOffset (hlimit k hk),
        hlink k hk hkj])
  rwa [nextFree_pageOffset (hlimit j hj), nextFree_pageOffset (hlimit j hj),
    linkTarget_inj] at hnext

/-! ## Bytes that are written -/

/-- Bytes that are written over one page keep the allocated pages exactly when
they keep the words. -/
theorem StoreAt.overlaid_iff (h : StoreAt image size free)
    (hover : Overlaid image image' j page m) :
    SameAllocated image' size free ↔ KeepsWords image free j page m := by
  constructor
  · rintro ⟨free', h', hmem⟩
    constructor
    · rintro rfl
      rw [← hover.page]
      apply h.sameWords h' hmem
      intro k hk
      rw [hover.others k (h.freelist.ne_zero hk)]
    · intro hj
      rw [← hover.page]
      apply h.sameLink h' hmem _ hj
      · intro k _ hkj
        rw [hover.others k hkj]
      · rw [hover.others 0 (h.freelist.ne_zero hj).symm]
  · intro hkeeps
    refine (h.of_words hover.length_le ?_ ?_).same
    · by_cases hj : 0 = j
      · subst hj
        rw [hover.page]
        exact hkeeps.metadata rfl
      · rw [hover.others 0 hj]
        exact SameWords.refl _
    · intro k hk
      by_cases hkj : k = j
      · subst hkj
        rw [hover.page]
        exact hkeeps.link hk
      · rw [hover.others k hkj]

/-- No free page links to the first one. -/
theorem StoreAt.linkWord_ne_head (h : StoreAt image size free)
    (hj : j ∈ free) :
    linkWord (pageAt image j) ≠ freelistHead (pageAt image 0) := by
  intro hlink
  apply h.chain.next_ne_start (List.mem_map_of_mem hj)
  rw [nextFree_pageOffset (h.freelist.limit j hj), hlink]

/-- A free page that is not the first one is linked to by another one. -/
theorem StoreAt.exists_prev (h : StoreAt image size free) (hj : j ∈ free)
    (hhead : freelistHead (pageAt image 0) ≠ pageOffset j) :
    ∃ i ∈ free, i ≠ j ∧ linkWord (pageAt image i) = pageOffset j := by
  have hlimit := h.freelist.limit
  have hstart : linkTarget (freelistHead (pageAt image 0)) ≠
      some (pageOffset j) := fun heq => hhead (eq_of_linkTarget_eq_some heq)
  obtain ⟨offset, hoffset, hne, hnext⟩ :=
    h.chain.exists_prev (List.mem_map_of_mem hj) hstart
  obtain ⟨i, hi, rfl⟩ := List.mem_map.mp hoffset
  rw [nextFree_pageOffset (hlimit i hi)] at hnext
  exact ⟨i, hi, fun heq => hne (heq ▸ rfl), eq_of_linkTarget_eq_some hnext⟩

/-- The link words of free pages lead to free pages. -/
theorem StoreAt.link_mem (h : StoreAt image size free) (hj : j ∈ free)
    (hk : k < pageLimit) (hlink : linkWord (pageAt image j) = pageOffset k) :
    k ∈ free := by
  have hnext : nextFree image (pageOffset j) = some (pageOffset k) := by
    rw [nextFree_pageOffset (h.freelist.limit j hj), hlink,
      linkTarget_pageOffset hk]
  obtain ⟨i, hi, heq⟩ := List.mem_map.mp
    (h.chain.next_mem (List.mem_map_of_mem hj) hnext)
  rwa [(pageOffset_inj (h.freelist.limit i hi) hk).mp heq] at hi

/-- The last free page is not page 0. -/
theorem StoreAt.tail_ne_zero (h : StoreAt image size (k :: rest)) :
    freelistTail (pageAt image 0) ≠ 0 := by
  have hfreelist := h.freelist
  obtain ⟨front, t, hlist⟩ : ∃ front t, k :: rest = front ++ [t] := by
    rcases List.eq_nil_or_concat (k :: rest) with hnil | ⟨front, t, hsnoc⟩
    · cases hnil
    · exact ⟨front, t, hsnoc.trans List.concat_eq_append⟩
  rw [hlist] at hfreelist
  obtain ⟨hpos, hlimit, -⟩ := hfreelist.inFile t (by simp)
  rw [hfreelist.tail_snoc]
  exact pageOffset_ne_zero hpos hlimit

theorem freelistHead_overlay (old new : Page) (hm : 16 ≤ m) :
    freelistHead (Words.overlay old new m) = freelistHead new :=
  Words.load_overlay_new old new _ hm

theorem freelistTail_overlay_blankPage (new : Page) (hm : m ≤ 16) :
    freelistTail (Words.overlay blankPage new m) = 0 :=
  (Words.load_overlay_old blankPage new _ hm).trans (Words.load_zero 16 _)

/-- A metadata page that begins over zeros has a tail only if it has its
head. -/
theorem SameWords.head_of_zeros {metadata new : Page}
    (h : SameWords metadata (Words.overlay blankPage new m))
    (htail : freelistTail metadata ≠ 0) :
    freelistHead new = freelistHead metadata := by
  rcases Nat.le_total 16 m with hm | hm
  · rw [← h.head, freelistHead_overlay _ _ hm]
  · rw [← h.tail, freelistTail_overlay_blankPage _ hm] at htail
    exact absurd rfl htail

/-- Once the zeros are written, some bytes of a new metadata page with another
head make up the words of a store only if the zeros have gone to no page that
counts. -/
theorem StoreAt.rewritten_iff {image₁ : ByteFile UInt8} {new : Page}
    (h : StoreAt image size (k :: rest)) (hlen : image.length ≤ image₁.length)
    (hsame : ∀ i ∈ k :: rest, pageAt image₁ i = pageAt image i)
    (hnew : freelistHead new ≠ freelistHead (pageAt image 0))
    (hover : Overlaid (writePage image₁ j blankPage) image' 0 new m) :
    SameAllocated image' size (k :: rest) ↔ j ≠ 0 ∧ j ∉ k :: rest ∧
      SameWords (pageAt image 0)
        (Words.overlay (pageAt image₁ 0) new m) := by
  have hothers : ∀ i ∈ k :: rest, i ≠ j →
      pageAt image' i = pageAt image i := by
    intro i hi hij
    rw [hover.others i (h.freelist.ne_zero hi), pageAt_writePage_of_ne _ hij,
      hsame i hi]
  constructor
  · rintro ⟨free', h', hmem⟩
    have hj : j ∉ k :: rest := by
      intro hj
      apply h'.linkWord_ne_zero ((hmem j).mpr hj)
      rw [hover.others j (h.freelist.ne_zero hj), pageAt_writePage_self,
        linkWord_blankPage]
    have hwords := h.sameWords h' hmem fun i hi => by
      rw [hothers i hi fun heq => hj (heq ▸ hi)]
    have hj0 : j ≠ 0 := by
      rintro rfl
      rw [hover.page, pageAt_writePage_self] at hwords
      exact hnew (hwords.head_of_zeros h.tail_ne_zero)
    rw [hover.page, pageAt_writePage_of_ne _ hj0.symm] at hwords
    exact ⟨hj0, hj, hwords⟩
  · rintro ⟨hj0, hj, hwords⟩
    refine (h.of_words ?_ ?_ ?_).same
    · exact hlen.trans
        ((image₁.length_le_length_write _ _).trans hover.length_le)
    · rw [hover.page, pageAt_writePage_of_ne _ hj0.symm]
      exact hwords
    · intro i hi
      rw [hothers i hi fun heq => hj (heq ▸ hi)]

theorem StoreAt.recycled_iff (h : StoreAt image size (k :: rest))
    (hover : Overlaid (writePage image j blankPage) image' 0
      (popHead (pageAt image 0) (linkWord (pageAt image k))) m) :
    SameAllocated image' size (k :: rest) ↔ j ≠ 0 ∧ j ∉ k :: rest ∧
      SameWords (pageAt image 0) (Words.overlay (pageAt image 0)
        (popHead (pageAt image 0) (linkWord (pageAt image k))) m) := by
  apply h.rewritten_iff (Nat.le_refl _) (fun _ _ => rfl) _ hover
  rw [freelistHead_popHead]
  exact h.linkWord_ne_head List.mem_cons_self

/-- Once the new page is written, some bytes of the new metadata page keep the
allocated pages exactly when they change no word. -/
theorem StoreAt.appended_iff (h : StoreAt image size [])
    (hover : Overlaid (writePage image size blankPage) image' 0 page m) :
    SameAllocated image' size [] ↔ SameWords (pageAt image 0)
      (Words.overlay (pageAt image 0) page m) := by
  have hzero : pageAt (writePage image size blankPage) 0 = pageAt image 0 := by
    have hsize := h.size_pos
    exact pageAt_writePage_of_ne _ (by omega)
  rw [← hzero, ← hover.page, hzero]
  constructor
  · rintro ⟨free', h', hmem⟩
    exact h.sameWords h' hmem nofun
  · intro hwords
    refine (h.of_words ?_ hwords nofun).same
    exact (image.length_le_length_write _ _).trans hover.length_le

/-! ## The transfers of an allocation -/

@[simp] theorem linkCompletes_tail {n : ℕ} :
    LinkCompletes schedule.tail n ↔ LinkCompletes schedule (n + 1) := by
  rw [LinkCompletes, LinkCompletes, List.getElem?_tail]

/-- How far an allocation without contents comes, and what it has written by
then. -/
inductive AllocAttempt (image : ByteFile UInt8) (schedule : List Transfer)
    (size : ℕ) : List ℕ → Status → StoreFile → Prop
  | unread {free : List ℕ} (hmeta : ¬Completes schedule 0) :
      AllocAttempt image schedule size free .badRead ⟨image, schedule.tail⟩
  | unlinked {k : ℕ} {rest : List ℕ} (hmeta : Completes schedule 0)
      (hlink : ¬LinkCompletes schedule 1) :
      AllocAttempt image schedule size (k :: rest) .badRead
        ⟨image, schedule.tail.tail⟩
  | negative {k : ℕ} {rest : List ℕ} (hmeta : Completes schedule 0)
      (hlink : LinkCompletes schedule 1)
      (hneg : indexToOffset (pageOffset k) < 0) :
      AllocAttempt image schedule size (k :: rest) .badWrite
        ⟨image, schedule.tail.tail⟩
  | zeros {k j : ℕ} {rest : List ℕ} {image' : ByteFile UInt8}
      (hmeta : Completes schedule 0) (hlink : LinkCompletes schedule 1)
      (hj : j < pageLimit) (hblank : indexToOffset (pageOffset k) = pageOffset j)
      (hzeros : ¬Completes schedule 2)
      (hover : Overlaid image image' j blankPage (moved schedule 2)) :
      AllocAttempt image schedule size (k :: rest) .badWrite
        ⟨image', schedule.tail.tail.tail⟩
  | popped {k j : ℕ} {rest : List ℕ} {image' : ByteFile UInt8}
      (hmeta : Completes schedule 0) (hlink : LinkCompletes schedule 1)
      (hj : j < pageLimit) (hblank : indexToOffset (pageOffset k) = pageOffset j)
      (hzeros : Completes schedule 2) (hwrite : ¬Completes schedule 3)
      (hover : Overlaid (writePage image j blankPage) image' 0
        (popHead (pageAt image 0) (linkWord (pageAt image k)))
        (moved schedule 3)) :
      AllocAttempt image schedule size (k :: rest) .badWrite
        ⟨image', schedule.tail.tail.tail.tail⟩
  | recycled {k j : ℕ} {rest : List ℕ}
      (hmeta : Completes schedule 0) (hlink : LinkCompletes schedule 1)
      (hj : j < pageLimit) (hblank : indexToOffset (pageOffset k) = pageOffset j)
      (hzeros : Completes schedule 2) (hwrite : Completes schedule 3) :
      AllocAttempt image schedule size (k :: rest) .ok
        ⟨misplacedBlank image k j, schedule.tail.tail.tail.tail⟩
  | limit (hmeta : Completes schedule 0)
      (hneg : indexToOffset (metaSize (pageAt image 0)) < 0) :
      AllocAttempt image schedule size [] .badWrite ⟨image, schedule.tail⟩
  | blank {image' : ByteFile UInt8} (hmeta : Completes schedule 0)
      (hsize : size < pageLimit) (hzeros : ¬Completes schedule 1)
      (hover : Overlaid image image' size blankPage (moved schedule 1)) :
      AllocAttempt image schedule size [] .badWrite
        ⟨image', schedule.tail.tail⟩
  | counted {image' : ByteFile UInt8} (hmeta : Completes schedule 0)
      (hsize : size < pageLimit) (hzeros : Completes schedule 1)
      (hwrite : ¬Completes schedule 2)
      (hover : Overlaid (writePage image size blankPage) image' 0
        (setSize (pageAt image 0) (metaSize (pageAt image 0) + 1))
        (moved schedule 2)) :
      AllocAttempt image schedule size [] .badWrite
        ⟨image', schedule.tail.tail.tail⟩
  | appended (hmeta : Completes schedule 0) (hsize : size < pageLimit)
      (hzeros : Completes schedule 1) (hwrite : Completes schedule 2) :
      AllocAttempt image schedule size [] .ok
        ⟨writePage (writePage image size blankPage) 0
          (setSize (pageAt image 0) (metaSize (pageAt image 0) + 1)),
          schedule.tail.tail.tail⟩

variable {status : Status} {index : PageIndex} {file' : StoreFile}

theorem StoreAt.recycled_attempt (h : StoreAt image size (k :: rest))
    (hmeta : Completes schedule 0)
    (hcall : allocRecycled none (pageAt image 0) ⟨image, schedule.tail⟩ =
      (status, index, file')) :
    AllocAttempt image schedule size (k :: rest) status file' := by
  have hk := h.freelist.limit k List.mem_cons_self
  have hin := h.inFile (h.free_lt k List.mem_cons_self)
  obtain ⟨read, next, hread, hlink, hnext⟩ := @pread_iff 8 image
    schedule.tail k (fun _ : Fin 8 => 0) hk hin.link_le
  have hlink' : read = 8 ↔ LinkCompletes schedule 1 :=
    hlink.trans linkCompletes_tail
  simp only [allocRecycled, h.freelist.head_cons, hread, indexToOffset_zero]
    at hcall
  by_cases hfull : read = 8
  · obtain rfl := hnext hfull
    rw [if_neg (not_not.mpr hfull), load_read_eq_linkWord] at hcall
    by_cases hneg : indexToOffset (pageOffset k) < 0
    · rw [pwrite_neg _ blankPage hneg] at hcall
      cases hcall
      exact .negative hmeta (hlink'.mp hfull) hneg
    obtain ⟨j, hj, hblank⟩ := exists_page_of_not_neg hneg
    obtain ⟨write, image₁, hwrite, hdone, himage₁, hover⟩ :=
      @pwrite_page_iff image schedule.tail.tail j blankPage hj
    rw [completes_tail, completes_tail] at hdone
    rw [moved_tail, moved_tail] at hover
    simp only [hblank, hwrite] at hcall
    by_cases hzeros : write = pageSize
    · obtain rfl := himage₁ hzeros
      rw [if_neg (not_not.mpr hzeros)] at hcall
      obtain ⟨metaWrite, image₂, hmetaWrite, hmetaDone, himage₂, hover₂⟩ :=
        @pwrite_page_iff (writePage image j blankPage)
          schedule.tail.tail.tail 0
          (popHead (pageAt image 0) (linkWord (pageAt image k))) (by decide)
      rw [completes_tail, completes_tail, completes_tail] at hmetaDone
      rw [moved_tail, moved_tail, moved_tail] at hover₂
      simp only [hmetaWrite] at hcall
      by_cases hwritten : metaWrite = pageSize
      · obtain rfl := himage₂ hwritten
        rw [if_neg (not_not.mpr hwritten)] at hcall
        cases hcall
        exact .recycled hmeta (hlink'.mp hfull) hj hblank (hdone.mp hzeros)
          (hmetaDone.mp hwritten)
      · rw [if_pos hwritten] at hcall
        cases hcall
        exact .popped hmeta (hlink'.mp hfull) hj hblank (hdone.mp hzeros)
          (mt hmetaDone.mpr hwritten) hover₂
    · rw [if_pos hzeros] at hcall
      cases hcall
      exact .zeros hmeta (hlink'.mp hfull) hj hblank (mt hdone.mpr hzeros)
        hover
  · rw [if_pos hfull] at hcall
    cases hcall
    exact .unlinked hmeta (mt hlink'.mpr hfull)

theorem StoreAt.appended_attempt (h : StoreAt image size [])
    (hmeta : Completes schedule 0)
    (hcall : allocAppended none (pageAt image 0) ⟨image, schedule.tail⟩ =
      (status, index, file')) :
    AllocAttempt image schedule size [] status file' := by
  simp only [allocAppended, indexToOffset_zero] at hcall
  rcases Nat.lt_or_eq_of_le h.size_le with hsize | rfl
  · rw [h.meta_size, indexToOffset_ofNat] at hcall
    obtain ⟨write, image₁, hwrite, hdone, himage₁, hover⟩ :=
      @pwrite_page_iff image schedule.tail size blankPage hsize
    rw [completes_tail] at hdone
    rw [moved_tail] at hover
    simp only [hwrite] at hcall
    by_cases hzeros : write = pageSize
    · obtain rfl := himage₁ hzeros
      obtain ⟨metaWrite, image₂, hmetaWrite, hmetaDone, himage₂, hover₂⟩ :=
        @pwrite_page_iff (writePage image size blankPage) schedule.tail.tail 0
          (setSize (pageAt image 0) (metaSize (pageAt image 0) + 1))
          (by decide)
      rw [completes_tail, completes_tail] at hmetaDone
      rw [moved_tail, moved_tail] at hover₂
      rw [h.meta_size] at hmetaWrite
      rw [if_neg (not_not.mpr hzeros), if_neg (not_not.mpr rfl)] at hcall
      simp only [hmetaWrite] at hcall
      by_cases hwritten : metaWrite = pageSize
      · obtain rfl := himage₂ hwritten
        rw [if_neg (not_not.mpr hwritten)] at hcall
        cases hcall
        exact .appended hmeta hsize (hdone.mp hzeros) (hmetaDone.mp hwritten)
      · rw [if_pos hwritten] at hcall
        cases hcall
        exact .counted hmeta hsize (hdone.mp hzeros)
          (mt hmetaDone.mpr hwritten) hover₂
    · rw [if_pos hzeros] at hcall
      cases hcall
      exact .blank hmeta hsize (mt hdone.mpr hzeros) hover
  · have hneg : indexToOffset (metaSize (pageAt image 0)) < 0 := by
      rw [h.meta_size, indexToOffset_ofNat]
      exact pageOffset_limit_neg
    rw [pwrite_neg _ blankPage hneg] at hcall
    cases hcall
    exact .limit hmeta hneg

theorem StoreAt.allocAttempt {store : Backing} (h : StoreAt image size free)
    (hcall : allocPage none (some store) ⟨image, schedule⟩ =
      (status, index, file')) :
    AllocAttempt image schedule size free status file' := by
  obtain ⟨read, metadata, hread, hdone, hmetadata⟩ :=
    @pread_page_iff image schedule 0 blankPage (by decide) h.inFile_zero
  simp only [allocPage, indexToOffset_zero, hread] at hcall
  rw [if_neg (by simp)] at hcall
  by_cases hfull : read = pageSize
  · obtain rfl := hmetadata hfull
    rw [if_neg (not_not.mpr hfull)] at hcall
    cases free with
    | nil =>
        rw [if_neg (not_not.mpr h.freelist.head_nil)] at hcall
        exact h.appended_attempt (hdone.mp hfull) hcall
    | cons k rest =>
        have hk := h.freelist.limit k List.mem_cons_self
        have hhead : freelistHead (pageAt image 0) ≠ emptyList :=
          h.freelist.head_cons ▸ pageOffset_ne_emptyList hk
        rw [if_pos hhead] at hcall
        exact h.recycled_attempt (hdone.mp hfull) hcall
  · rw [if_pos hfull] at hcall
    cases hcall
    exact .unread (mt hdone.mpr hfull)

/-! ## Which pages are allocated afterwards -/

/-- Where the zeros are written, it is their page that counts. -/
theorem allocSpares_cons (hmeta : Completes schedule 0)
    (hlink : LinkCompletes schedule 1) (hj : j < pageLimit)
    (hblank : indexToOffset (pageOffset k) = pageOffset j) :
    AllocSpares image schedule (k :: rest) ↔
      (¬Completes schedule 2 →
        KeepsWords image (k :: rest) j blankPage (moved schedule 2)) ∧
      (Completes schedule 2 → j ≠ 0 ∧ j ∉ k :: rest ∧
        SameWords (pageAt image 0) (Words.overlay (pageAt image 0)
          (popHead (pageAt image 0) (linkWord (pageAt image k)))
          (moved schedule 3))) := by
  constructor
  · rintro (hunread | hunlinked | hneg | ⟨i, hi, hblank', hzeros, hwrite⟩)
    · exact absurd hmeta hunread
    · exact absurd hlink hunlinked
    · rw [hblank] at hneg
      exact absurd hneg (not_pageOffset_neg hj)
    · rw [hblank, pageOffset_inj hj hi] at hblank'
      subst hblank'
      exact ⟨hzeros, hwrite⟩
  · rintro ⟨hzeros, hwrite⟩
    exact Or.inr (Or.inr (Or.inr ⟨j, hj, hblank, hzeros, hwrite⟩))

/-- Where a page is appended, it is the metadata page that counts. -/
theorem allocSpares_nil (hmeta : Completes schedule 0)
    (hneg : ¬indexToOffset (metaSize (pageAt image 0)) < 0)
    (hzeros : Completes schedule 1) :
    AllocSpares image schedule [] ↔
      SameWords (pageAt image 0) (Words.overlay (pageAt image 0)
        (setSize (pageAt image 0) (metaSize (pageAt image 0) + 1))
        (moved schedule 2)) := by
  rw [AllocSpares, or_iff_right (not_not.mpr hmeta), or_iff_right hneg,
    or_iff_right (not_not.mpr hzeros)]

theorem allocSpares_unread (hmeta : ¬Completes schedule 0) :
    AllocSpares image schedule free := by
  cases free with
  | nil => exact Or.inl hmeta
  | cons k rest => exact Or.inl hmeta

theorem StoreAt.not_size_neg (h : StoreAt image size free)
    (hsize : size < pageLimit) :
    ¬indexToOffset (metaSize (pageAt image 0)) < 0 := by
  rw [h.meta_size, indexToOffset_ofNat]
  exact not_pageOffset_neg hsize

/-- An allocation succeeds exactly when all its transfers complete. -/
theorem AllocAttempt.ok_iff (h : StoreAt image size free)
    (hcall : AllocAttempt image schedule size free status file') :
    status = .ok ↔ AllocCompletes image schedule free := by
  cases hcall with
  | unread hmeta =>
      refine iff_of_false nofun fun hall => hmeta ?_
      cases free with
      | nil => exact hall.1
      | cons k rest => exact hall.1
  | unlinked hmeta hlink => exact iff_of_false nofun fun h => hlink h.2.1
  | negative hmeta hlink hneg => exact iff_of_false nofun fun h => h.2.2.1 hneg
  | zeros hmeta hlink hj hblank hzeros hover =>
      exact iff_of_false nofun fun h => hzeros h.2.2.2.1
  | popped hmeta hlink hj hblank hzeros hwrite hover =>
      exact iff_of_false nofun fun h => hwrite h.2.2.2.2
  | recycled hmeta hlink hj hblank hzeros hwrite =>
      refine iff_of_true rfl ⟨hmeta, hlink, ?_, hzeros, hwrite⟩
      rw [hblank]
      exact not_pageOffset_neg hj
  | limit hmeta hneg => exact iff_of_false nofun fun h => h.2.1 hneg
  | blank hmeta hsize hzeros hover =>
      exact iff_of_false nofun fun h => hzeros h.2.2.1
  | counted hmeta hsize hzeros hwrite hover =>
      exact iff_of_false nofun fun h => hwrite h.2.2.2
  | appended hmeta hsize hzeros hwrite =>
      exact iff_of_true rfl ⟨hmeta, h.not_size_neg hsize, hzeros, hwrite⟩

/-- An allocation that fails leaves the same pages allocated exactly when the
bytes it has written change no word. -/
theorem AllocAttempt.same_iff (h : StoreAt image size free)
    (hcall : AllocAttempt image schedule size free status file')
    (hstatus : status ≠ .ok) :
    SameAllocated file'.image size free ↔
      AllocSpares image schedule free := by
  cases hcall with
  | unread hmeta => exact iff_of_true h.same (allocSpares_unread hmeta)
  | unlinked hmeta hlink => exact iff_of_true h.same (Or.inr (Or.inl hlink))
  | negative hmeta hlink hneg =>
      exact iff_of_true h.same (Or.inr (Or.inr (Or.inl hneg)))
  | zeros hmeta hlink hj hblank hzeros hover =>
      rw [h.overlaid_iff hover, allocSpares_cons hmeta hlink hj hblank]
      exact ⟨fun hkeeps => ⟨fun _ => hkeeps, fun hdone => absurd hdone hzeros⟩,
        fun hboth => hboth.1 hzeros⟩
  | popped hmeta hlink hj hblank hzeros hwrite hover =>
      rw [h.recycled_iff hover, allocSpares_cons hmeta hlink hj hblank]
      exact ⟨fun hkeeps => ⟨fun hnot => absurd hzeros hnot, fun _ => hkeeps⟩,
        fun hboth => hboth.2 hzeros⟩
  | recycled hmeta hlink hj hblank hzeros hwrite => exact absurd rfl hstatus
  | limit hmeta hneg => exact iff_of_true h.same (Or.inr (Or.inl hneg))
  | blank hmeta hsize hzeros hover =>
      refine iff_of_true ?_ (Or.inr (Or.inr (Or.inl hzeros)))
      rw [h.overlaid_iff hover]
      have hsize0 : size ≠ 0 := Nat.one_le_iff_ne_zero.mp h.size_pos
      exact ⟨fun hzero => absurd hzero hsize0, nofun⟩
  | counted hmeta hsize hzeros hwrite hover =>
      rw [h.appended_iff hover,
        allocSpares_nil hmeta (h.not_size_neg hsize) hzeros]
  | appended hmeta hsize hzeros hwrite => exact absurd rfl hstatus

/-! ## Allocations that succeed -/

/-- The number of transfers of an allocation that succeeds. -/
def allocTransfers : List ℕ → ℕ
  | [] => 3
  | _ :: _ => 4

/-- The page was not allocated before, and can be read. -/
structure NewlyAllocated (size : ℕ) (free : List ℕ) (index : PageIndex)
    (image' : ByteFile UInt8) (k : ℕ) : Prop where
  index_eq : index = Int64.ofNat k
  pos : 1 ≤ k
  limit : k < pageLimit
  fresh : k ∈ free ∨ size ≤ k
  inFile : InFile image' k

theorem AllocAttempt.schedule_eq
    (hcall : AllocAttempt image schedule size free .ok file') :
    file'.schedule = schedule.drop (allocTransfers free) := by
  cases hcall with
  | recycled hmeta hlink hj hblank hzeros hwrite =>
      simp only [allocTransfers, ← List.drop_one, List.drop_drop]
  | appended hmeta hsize hzeros hwrite =>
      simp only [allocTransfers, ← List.drop_one, List.drop_drop]

/-- An allocation that succeeds returns a page that was not allocated. -/
theorem StoreAt.newlyAllocated {store : Backing}
    (h : StoreAt image size free)
    (hcall : allocPage none (some store) ⟨image, schedule⟩ =
      (.ok, index, file')) :
    ∃ k, NewlyAllocated size free index file'.image k := by
  have houtcome := h.blankOutcome (allocPage_ok hcall)
  generalize hfile : reliable file'.image = later at houtcome
  cases houtcome with
  | @recycled k j rest hj hblank =>
      have hmem : k ∈ k :: rest := List.mem_cons_self
      obtain ⟨hpos, hlimit, hin⟩ := h.freelist.inFile k hmem
      have himage : file'.image = misplacedBlank image k j :=
        congrArg StoreFile.image hfile
      refine ⟨k, rfl, hpos, hlimit, Or.inl hmem, himage ▸ hin.mono ?_⟩
      exact length_le_two_writes j _ _
  | @appended image' hsize hstore hpage hlen =>
      have himage : file'.image = image' := congrArg StoreFile.image hfile
      refine ⟨size, rfl, h.size_pos, hsize, Or.inr (Nat.le_refl size), ?_⟩
      rw [himage, InFile, hlen]
      exact Nat.le_max_right _ _

/-- An allocation that succeeds changes which pages are allocated. -/
theorem StoreAt.not_sameAllocated {store : Backing}
    (h : StoreAt image size free)
    (hcall : allocPage none (some store) ⟨image, schedule⟩ =
      (.ok, index, file')) :
    ¬SameAllocated file'.image size free := by
  have houtcome := h.blankOutcome (allocPage_ok hcall)
  generalize hfile : reliable file'.image = later at houtcome
  rintro ⟨free', h', hmem⟩
  cases houtcome with
  | @recycled k j rest hj hblank =>
      have himage : file'.image = misplacedBlank image k j :=
        congrArg StoreFile.image hfile
      rw [himage] at h'
      by_cases hhit : j ∈ rest
      · exact h.not_misplaced hhit h'
      · have hk : k ∈ free' := (hmem k).mpr List.mem_cons_self
        have hrest : k ∈ rest := h'.free_unique (h.misplaced hhit) hk
        exact (List.nodup_cons.mp h.freelist.nodup).1 hrest
  | @appended image' hsize hstore hpage hlen =>
      have himage : file'.image = image' := congrArg StoreFile.image hfile
      rw [himage] at h'
      have hcount := h'.size_unique hstore
      omega

end NickDB
