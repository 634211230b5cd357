import NickDB.Store.Calls
import NickDB.Support.Linked
import Mathlib.Data.List.TakeWhile

/-!
# The list of free pages on disk

The metadata page holds the offsets of the first and the last free page, and
each free page opens with the offset of the next one.  `FreelistAt` says that
following the links visits a given list of page numbers.  It is stated for an
arbitrary final link word, because a failed `free_page` can leave a link that
leads nowhere behind the last free page; for the lists of a store that has only
been given existing pages the final word is `-1`.

The edit lemmas follow the writers: `alloc_page` takes the first page off the
list, `free_page` puts a page behind the last one, and a page that is freed a
second time cuts the list behind itself.
-/

namespace NickDB

open Linked

/-- The page a link word names, if any. -/
def linkTarget (word : ByteOffset) : Option ByteOffset :=
  if word = emptyList then none else some word

/-- The free page behind the one at `offset`. -/
def nextFree (image : ByteFile UInt8) (offset : ByteOffset) :
    Option ByteOffset :=
  linkTarget (Words.load (image.read (position offset) 8) 0 Words.fits)

/-- Following the links from the head visits the pages `free` in this order and
ends at the link word `stop`; the tail names the last page. -/
structure FreelistAt (image : ByteFile UInt8) (free : List ℕ)
    (stop : ByteOffset) : Prop where
  inFile : ∀ k ∈ free, 1 ≤ k ∧ k < pageLimit ∧ InFile image k
  nodup : free.Nodup
  path : Path (nextFree image) (linkTarget (freelistHead (pageAt image 0)))
    (free.map pageOffset) (linkTarget stop)
  tail : linkTarget (freelistTail (pageAt image 0)) =
    (free.map pageOffset).getLast?.or (linkTarget stop)

/-! ## Link words -/

theorem linkTarget_emptyList : linkTarget emptyList = none := if_pos rfl

theorem linkTarget_of_ne {word : ByteOffset} (h : word ≠ emptyList) :
    linkTarget word = some word := if_neg h

theorem linkTarget_pageOffset {k : ℕ} (hk : k < pageLimit) :
    linkTarget (pageOffset k) = some (pageOffset k) :=
  linkTarget_of_ne (pageOffset_ne_emptyList hk)

theorem eq_of_linkTarget_eq_some {word offset : ByteOffset}
    (h : linkTarget word = some offset) : word = offset := by
  unfold linkTarget at h
  split at h
  · cases h
  · exact Option.some.inj h

theorem linkTarget_inj {v w : ByteOffset} :
    linkTarget v = linkTarget w ↔ v = w := by
  refine ⟨fun h => ?_, fun h => h ▸ rfl⟩
  by_cases hw : w = emptyList
  · subst hw
    by_contra hv
    rw [linkTarget_emptyList, linkTarget_of_ne hv] at h
    cases h
  · rw [linkTarget_of_ne hw] at h
    exact eq_of_linkTarget_eq_some h

variable {image image' : ByteFile UInt8} {free : List ℕ} {stop : ByteOffset}

theorem nextFree_pageOffset {k : ℕ} (hk : k < pageLimit) :
    nextFree image (pageOffset k) =
      linkTarget (linkWord (pageAt image k)) := by
  rw [nextFree, position_pageOffset hk]
  rfl

/-- Links of pages below the limit agree when the link words do. -/
theorem nextFree_congr {free : List ℕ} (hlimit : ∀ k ∈ free, k < pageLimit)
    (hlink : ∀ k ∈ free,
      linkWord (pageAt image' k) = linkWord (pageAt image k)) :
    ∀ offset ∈ free.map pageOffset,
      nextFree image' offset = nextFree image offset := by
  intro offset hoffset
  obtain ⟨k, hk, rfl⟩ := List.mem_map.mp hoffset
  rw [nextFree_pageOffset (hlimit k hk), nextFree_pageOffset (hlimit k hk),
    hlink k hk]

/-! ## Reading the list off the metadata page -/

theorem FreelistAt.head_nil (h : FreelistAt image [] stop) :
    freelistHead (pageAt image 0) = stop :=
  linkTarget_inj.mp h.path

theorem FreelistAt.tail_nil (h : FreelistAt image [] stop) :
    freelistTail (pageAt image 0) = stop :=
  linkTarget_inj.mp h.tail

theorem FreelistAt.head_cons {k : ℕ} (h : FreelistAt image (k :: free) stop) :
    freelistHead (pageAt image 0) = pageOffset k :=
  eq_of_linkTarget_eq_some h.path.1

theorem FreelistAt.tail_snoc {t : ℕ} (h : FreelistAt image (free ++ [t]) stop) :
    freelistTail (pageAt image 0) = pageOffset t := by
  apply eq_of_linkTarget_eq_some
  rw [h.tail]
  simp

theorem FreelistAt.limit (h : FreelistAt image free stop) :
    ∀ k ∈ free, k < pageLimit :=
  fun k hk => (h.inFile k hk).2.1

theorem FreelistAt.ne_zero (h : FreelistAt image free stop) {k : ℕ}
    (hk : k ∈ free) : k ≠ 0 :=
  Nat.one_le_iff_ne_zero.mp (h.inFile k hk).1

/-- The free pages are the pages that can be reached from the head. -/
theorem FreelistAt.mem_iff_reaches (h : FreelistAt image free emptyList)
    {k : ℕ} (hk : k < pageLimit) :
    k ∈ free ↔ Reaches (nextFree image)
      (linkTarget (freelistHead (pageAt image 0))) (pageOffset k) := by
  have hchain : Chain (nextFree image)
      (linkTarget (freelistHead (pageAt image 0))) (free.map pageOffset) :=
    h.path
  rw [← hchain.mem_iff_reaches, List.mem_map]
  constructor
  · intro hmem
    exact ⟨k, hmem, rfl⟩
  · rintro ⟨j, hj, hjk⟩
    rwa [(pageOffset_inj (h.limit j hj) hk).mp hjk] at hj

/-! ## Edits -/

/-- The list only depends on the head, the tail and the link words of its
pages. -/
theorem FreelistAt.frame (h : FreelistAt image free stop)
    (hlen : image.length ≤ image'.length)
    (hhead : freelistHead (pageAt image' 0) = freelistHead (pageAt image 0))
    (htail : freelistTail (pageAt image' 0) = freelistTail (pageAt image 0))
    (hlink : ∀ k ∈ free,
      linkWord (pageAt image' k) = linkWord (pageAt image k)) :
    FreelistAt image' free stop where
  inFile := by
    intro k hk
    obtain ⟨hpos, hlimit, hin⟩ := h.inFile k hk
    exact ⟨hpos, hlimit, hin.mono hlen⟩
  nodup := h.nodup
  path := by
    rw [hhead]
    exact h.path.congr (nextFree_congr h.limit hlink)
  tail := by
    rw [htail]
    exact h.tail

/-- Taking the first free page off the list. -/
theorem FreelistAt.pop {k : ℕ} (h : FreelistAt image (k :: free) stop)
    (hlen : image.length ≤ image'.length)
    (hhead : freelistHead (pageAt image' 0) = linkWord (pageAt image k))
    (htail : freelistTail (pageAt image' 0) =
      freelistTail (popHead (pageAt image 0) (linkWord (pageAt image k))))
    (hlink : ∀ j ∈ free,
      linkWord (pageAt image' j) = linkWord (pageAt image j)) :
    FreelistAt image' free stop where
  inFile := by
    intro j hj
    obtain ⟨hpos, hlimit, hin⟩ := h.inFile j (List.mem_cons_of_mem k hj)
    exact ⟨hpos, hlimit, hin.mono hlen⟩
  nodup := (List.nodup_cons.mp h.nodup).2
  path := by
    have hk : k < pageLimit := h.limit k List.mem_cons_self
    have hlimit : ∀ j ∈ free, j < pageLimit := fun j hj =>
      h.limit j (List.mem_cons_of_mem k hj)
    rw [hhead, ← nextFree_pageOffset hk]
    exact h.path.2.congr (nextFree_congr hlimit hlink)
  tail := by
    have hk : k < pageLimit := h.limit k List.mem_cons_self
    rw [htail, freelistTail_popHead, h.head_cons]
    rcases List.eq_nil_or_concat free with rfl | ⟨front, t, rfl⟩
    · -- the only free page is head and tail at once
      have hlast : freelistTail (pageAt image 0) = pageOffset k :=
        @FreelistAt.tail_snoc image [] stop k h
      rw [if_pos hlast.symm, ← nextFree_pageOffset hk]
      exact h.path.2
    · rw [List.concat_eq_append] at h ⊢
      have ht : t < pageLimit := h.limit t (by simp)
      have hne : k ≠ t := by
        rintro rfl
        exact (List.nodup_cons.mp h.nodup).1 (by simp)
      have hlast : freelistTail (pageAt image 0) = pageOffset t :=
        @FreelistAt.tail_snoc image (k :: front) stop t h
      rw [hlast, if_neg (mt (pageOffset_inj hk ht).mp hne),
        linkTarget_pageOffset ht]
      simp

/-- The list after `free_page` of the page number `k`: pages behind an earlier
occurrence of `k` are dropped, and `k` comes last. -/
def requeue (k : ℕ) (free : List ℕ) : List ℕ :=
  free.takeWhile (· ≠ k) ++ [k]

theorem requeue_of_not_mem {k : ℕ} (hk : k ∉ free) :
    requeue k free = free ++ [k] := by
  have hall : ∀ j ∈ free, decide (j ≠ k) = true := by
    intro j hj
    exact decide_eq_true fun h => hk (h ▸ hj)
  rw [requeue, List.takeWhile_eq_self_iff.mpr hall]

theorem map_requeue {k : ℕ} (hk : k < pageLimit)
    (hlimit : ∀ j ∈ free, j < pageLimit) :
    (requeue k free).map pageOffset =
      (free.map pageOffset).takeWhile (· ≠ pageOffset k) ++ [pageOffset k] := by
  induction free with
  | nil => rfl
  | cons j free ih =>
      have hrest := ih fun i hi => hlimit i (List.mem_cons_of_mem j hi)
      have hjk := pageOffset_inj (hlimit j List.mem_cons_self) hk
      by_cases heq : j = k
      · simp [requeue, heq]
      · simpa [requeue, heq, hjk] using hrest

theorem mem_requeue_self (k : ℕ) (free : List ℕ) : k ∈ requeue k free := by
  simp [requeue]

theorem mem_of_mem_requeue {k j : ℕ} (h : j ∈ requeue k free) :
    j ∈ free ∨ j = k := by
  rw [requeue, List.mem_append, List.mem_singleton] at h
  exact h.imp_left fun hj => (List.takeWhile_sublist _).mem hj

/-- Putting a page on the empty list. -/
theorem FreelistAt.enqueue_nil {k : ℕ}
    (hpos : 1 ≤ k) (hk : k < pageLimit) (hin : InFile image' k)
    (hhead : freelistHead (pageAt image' 0) = pageOffset k)
    (htail : freelistTail (pageAt image' 0) = pageOffset k)
    (hlink : linkWord (pageAt image' k) = emptyList) :
    FreelistAt image' [k] emptyList where
  inFile := by
    intro j hj
    obtain rfl := List.mem_singleton.mp hj
    exact ⟨hpos, hk, hin⟩
  nodup := List.nodup_singleton k
  path := by
    refine ⟨hhead ▸ linkTarget_pageOffset hk, ?_⟩
    rw [nextFree_pageOffset hk, hlink]
    rfl
  tail := by
    rw [htail, linkTarget_pageOffset hk]
    rfl

/-- Putting the page number `k` behind the last free page `t`, wherever `k`
stood before. -/
theorem FreelistAt.enqueue {k t : ℕ} {front : List ℕ}
    (h : FreelistAt image (front ++ [t]) stop)
    (hlen : image.length ≤ image'.length)
    (hpos : 1 ≤ k) (hk : k < pageLimit) (hin : InFile image' k)
    (hhead : freelistHead (pageAt image' 0) = freelistHead (pageAt image 0))
    (htail : freelistTail (pageAt image' 0) = pageOffset k)
    (hlink : linkWord (pageAt image' k) = emptyList)
    (hold : k ≠ t → linkWord (pageAt image' t) = pageOffset k)
    (hsame : ∀ j ∈ front, j ≠ k →
      linkWord (pageAt image' j) = linkWord (pageAt image j)) :
    FreelistAt image' (requeue k (front ++ [t])) emptyList where
  inFile := by
    intro j hj
    rcases mem_of_mem_requeue hj with hmem | rfl
    · obtain ⟨hjpos, hjlimit, hjin⟩ := h.inFile j hmem
      exact ⟨hjpos, hjlimit, hjin.mono hlen⟩
    · exact ⟨hpos, hk, hin⟩
  nodup := by
    rw [requeue]
    refine List.Nodup.append
      ((List.takeWhile_sublist _).nodup h.nodup) (List.nodup_singleton k) ?_
    intro j hj hjk
    obtain rfl := List.mem_singleton.mp hjk
    simpa using List.mem_takeWhile_imp hj
  path := by
    have hlimit : ∀ j ∈ front, j < pageLimit := fun j hj =>
      h.limit j (List.mem_append_left _ hj)
    have ht : t < pageLimit := h.limit t (by simp)
    have hpath := h.path
    rw [hhead, map_requeue hk h.limit]
    rw [List.map_append, List.map_singleton] at hpath ⊢
    apply hpath.enqueue
    · rw [nextFree_pageOffset hk, hlink]
    · intro hne
      rw [nextFree_pageOffset ht, hold fun heq => hne (heq ▸ rfl),
        linkTarget_pageOffset hk]
    · intro offset hoffset hne
      obtain ⟨j, hj, rfl⟩ := List.mem_map.mp hoffset
      rw [nextFree_pageOffset (hlimit j hj), nextFree_pageOffset (hlimit j hj),
        hsame j hj fun heq => hne (heq ▸ rfl)]
  tail := by
    rw [htail, linkTarget_pageOffset hk, requeue]
    simp

/-! ## The images the store writes -/

theorem pageAt_two_writes {k j : ℕ} (page metadata : Page) (hj : j ≠ 0)
    (hjk : j ≠ k) :
    pageAt (writePage (writePage image k page) 0 metadata) j =
      pageAt image j := by
  rw [pageAt_writePage_of_ne metadata hj, pageAt_writePage_of_ne page hjk]

theorem length_le_two_writes (k : ℕ) (page metadata : Page) :
    image.length ≤
      (writePage (writePage image k page) 0 metadata).length :=
  (image.length_le_length_write _ page).trans
    (ByteFile.length_le_length_write _ _ metadata)

/-- `alloc_page` takes the first page off the list and writes to some page off
the rest of it. -/
theorem FreelistAt.recycled {k : ℕ} (h : FreelistAt image (k :: free) stop)
    (page : Page) {j : ℕ} (hj : j ∉ free) :
    FreelistAt (writePage (writePage image j page) 0
      (popHead (pageAt image 0) (linkWord (pageAt image k)))) free stop := by
  refine h.pop (length_le_two_writes j page _) ?_ ?_ ?_
  · rw [pageAt_writePage_self, freelistHead_popHead]
  · rw [pageAt_writePage_self]
  · intro i hi
    have hi0 : i ≠ 0 := h.ne_zero (List.mem_cons_of_mem k hi)
    have hij : i ≠ j := by
      rintro rfl
      exact hj hi
    rw [pageAt_two_writes page _ hi0 hij]

/-- `alloc_page` appends a page to the file while no page is free. -/
theorem FreelistAt.extended (h : FreelistAt image [] stop) (n : ℕ)
    (page : Page) (size : PageIndex) :
    FreelistAt (writePage (writePage image n page) 0
      (setSize (pageAt image 0) size)) [] stop := by
  refine h.frame (length_le_two_writes n page _) ?_ ?_ ?_
  · rw [pageAt_writePage_self, freelistHead_setSize]
  · rw [pageAt_writePage_self, freelistTail_setSize]
  · intro i hi
    cases hi

/-- `free_page` puts a page on the empty list. -/
theorem FreelistAt.freed_first {k : ℕ} (hpos : 1 ≤ k) (hk : k < pageLimit) :
    FreelistAt (writePage (writePage image k (linkPage (-1))) 0
      (setTail (setHead (pageAt image 0) (pageOffset k)) (pageOffset k)))
      [k] emptyList := by
  have hk0 : k ≠ 0 := Nat.one_le_iff_ne_zero.mp hpos
  refine FreelistAt.enqueue_nil hpos hk
    (inFile_writePage_self k _).writePage ?_ ?_ ?_
  · rw [pageAt_writePage_self, freelistHead_setTail, freelistHead_setHead]
  · rw [pageAt_writePage_self, freelistTail_setTail]
  · rw [pageAt_writePage_of_ne _ hk0, pageAt_writePage_self,
      linkWord_linkPage]

/-- `free_page` puts a page behind the last free one. -/
theorem FreelistAt.freed_appended {k t : ℕ} {front : List ℕ}
    (h : FreelistAt image (front ++ [t]) stop) (hpos : 1 ≤ k)
    (hk : k < pageLimit) :
    FreelistAt (writePage (writePage
        (writePage image t (linkPage (pageOffset k))) k (linkPage (-1))) 0
        (setTail (pageAt image 0) (pageOffset k)))
      (requeue k (front ++ [t])) emptyList := by
  have hk0 : k ≠ 0 := Nat.one_le_iff_ne_zero.mp hpos
  have ht0 : t ≠ 0 := h.ne_zero (by simp)
  have hlen := image.length_le_length_write (pageSize * t)
    (linkPage (pageOffset k))
  refine h.enqueue (hlen.trans (length_le_two_writes k _ _)) hpos hk
    (inFile_writePage_self k _).writePage ?_ ?_ ?_ ?_ ?_
  · rw [pageAt_writePage_self, freelistHead_setTail]
  · rw [pageAt_writePage_self, freelistTail_setTail]
  · rw [pageAt_writePage_of_ne _ hk0, pageAt_writePage_self,
      linkWord_linkPage]
  · intro hne
    rw [pageAt_two_writes _ _ ht0 hne.symm, pageAt_writePage_self,
      linkWord_linkPage]
  · intro j hj hjk
    have hj0 : j ≠ 0 := h.ne_zero (List.mem_append_left _ hj)
    have hjt : j ≠ t := by
      rintro rfl
      exact (List.nodup_append.mp h.nodup).2.2 j hj j
        (List.mem_singleton_self j) rfl
    rw [pageAt_two_writes _ _ hj0 hjk, pageAt_writePage_of_ne _ hjt]

/-- A write to a page keeps the list if it keeps the link word of a free
page. -/
theorem FreelistAt.put {k : ℕ} {page : Page} (h : FreelistAt image free stop)
    (hk : k ≠ 0)
    (hlink : k ∈ free → linkWord page = linkWord (pageAt image k)) :
    FreelistAt (writePage image k page) free stop := by
  refine h.frame (image.length_le_length_write _ page) ?_ ?_ ?_
  · rw [pageAt_writePage_of_ne page hk.symm]
  · rw [pageAt_writePage_of_ne page hk.symm]
  · intro j hj
    by_cases hjk : j = k
    · subst hjk
      rw [pageAt_writePage_self, hlink hj]
    · rw [pageAt_writePage_of_ne page hjk]

end NickDB
