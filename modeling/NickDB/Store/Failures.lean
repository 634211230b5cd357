import NickDB.Store.Wellformed

/-!
# Transfers that fail

What the system calls do, page by page, on a file on which every transfer
completes or fails without moving a byte, and what it takes for a change of the
image to keep the list of free pages.
-/

namespace NickDB

open Linked

/-- Every transfer to come completes or fails; none stops short. -/
def AllOrNothing (schedule : List Transfer) : Prop :=
  ∀ transfer ∈ schedule, transfer = .full ∨ transfer = .failed

instance (schedule : List Transfer) : Decidable (AllOrNothing schedule) :=
  inferInstanceAs (Decidable (∀ transfer ∈ schedule, _))

/-- The transfer number `n` of those to come fails. -/
def Fails (schedule : List Transfer) (n : ℕ) : Prop :=
  schedule[n]? = some .failed

instance (schedule : List Transfer) (n : ℕ) : Decidable (Fails schedule n) :=
  inferInstanceAs (Decidable (_ = _))

variable {image image' : ByteFile UInt8} {schedule : List Transfer}
  {size : ℕ} {free : List ℕ}

theorem AllOrNothing.tail (h : AllOrNothing schedule) :
    AllOrNothing schedule.tail :=
  fun transfer htransfer => h transfer (List.mem_of_mem_tail htransfer)

@[simp] theorem fails_tail {n : ℕ} :
    Fails schedule.tail n ↔ Fails schedule (n + 1) := by
  rw [Fails, Fails, List.getElem?_tail]

/-- The next transfer moves everything or nothing. -/
theorem AllOrNothing.count (h : AllOrNothing schedule) (available : ℕ) :
    (StoreFile.mk image schedule).nextTransfer.count available =
      if Fails schedule 0 then none else some available := by
  cases schedule with
  | nil => rfl
  | cons transfer rest =>
      rcases h transfer List.mem_cons_self with rfl | rfl
      · rfl
      · rfl

/-- A read inside the file. -/
theorem AllOrNothing.pread (h : AllOrNothing schedule) {n : ℕ}
    {offset : ByteOffset} (dest : Fin n → UInt8) (hoffset : ¬offset < 0)
    (hlen : position offset + n ≤ image.length) :
    pread ⟨image, schedule⟩ dest offset =
      if Fails schedule 0 then (-1, dest, ⟨image, schedule.tail⟩)
      else ((n : ℤ), image.read (position offset) n,
        ⟨image, schedule.tail⟩) := by
  have havail : min n (image.length - position offset) = n := by omega
  simp only [NickDB.pread, if_neg hoffset, h.count, StoreFile.advance, havail]
  by_cases hfails : Fails schedule 0
  · simp only [if_pos hfails]
  · simp only [if_neg hfails, Fin.is_lt, if_true]
    rfl

theorem AllOrNothing.pread_page (h : AllOrNothing schedule) {k : ℕ}
    (dest : Page) (hk : k < pageLimit) (hin : InFile image k) :
    NickDB.pread ⟨image, schedule⟩ dest (pageOffset k) =
      if Fails schedule 0 then (-1, dest, ⟨image, schedule.tail⟩)
      else ((pageSize : ℤ), pageAt image k, ⟨image, schedule.tail⟩) := by
  have hpos := position_pageOffset hk
  rw [h.pread dest (not_pageOffset_neg hk), hpos]
  · rfl
  · rw [hpos]
    simp only [InFile, pageSize] at *
    omega

/-- A read of the link word of a page. -/
theorem AllOrNothing.pread_link (h : AllOrNothing schedule) {k : ℕ}
    (dest : Fin 8 → UInt8) (hk : k < pageLimit) (hin : InFile image k) :
    NickDB.pread ⟨image, schedule⟩ dest (pageOffset k) =
      if Fails schedule 0 then (-1, dest, ⟨image, schedule.tail⟩)
      else ((8 : ℤ), image.read (pageSize * k) 8, ⟨image, schedule.tail⟩) := by
  have hpos := position_pageOffset hk
  rw [h.pread dest (not_pageOffset_neg hk), hpos]
  · rfl
  · rw [hpos]
    simp only [InFile, pageSize] at *
    omega

theorem AllOrNothing.pwrite_page (h : AllOrNothing schedule) {k : ℕ}
    (src : Page) (hk : k < pageLimit) :
    pwrite ⟨image, schedule⟩ src (pageOffset k) =
      if Fails schedule 0 then (-1, ⟨image, schedule.tail⟩)
      else ((pageSize : ℤ), ⟨writePage image k src, schedule.tail⟩) := by
  simp only [pwrite, if_neg (not_pageOffset_neg hk), h.count,
    StoreFile.advance, position_pageOffset hk]
  by_cases hfails : Fails schedule 0
  · simp only [if_pos hfails]
  · simp only [if_neg hfails]
    rfl

/-! ## Keeping the list of free pages -/

/-- Following the links from the head visits the same pages. -/
def ChainKept (image image' : ByteFile UInt8) : Prop :=
  ∀ offsets,
    Chain (nextFree image')
      (linkTarget (freelistHead (pageAt image' 0))) offsets ↔
    Chain (nextFree image) (linkTarget (freelistHead (pageAt image 0))) offsets

/-- With the metadata page the same, the list is kept exactly when the link
words of its pages are. -/
theorem StoreAt.chainKept_iff (h : StoreAt image size free)
    (hmeta : pageAt image' 0 = pageAt image 0) :
    ChainKept image image' ↔
      ∀ k ∈ free, linkWord (pageAt image' k) = linkWord (pageAt image k) := by
  have hchain : Chain (nextFree image)
      (linkTarget (freelistHead (pageAt image 0))) (free.map pageOffset) :=
    h.freelist.path
  have hlimit := h.freelist.limit
  rw [ChainKept, hmeta]
  constructor
  · intro hkept k hk
    have hlink := hchain.link_unique ((hkept _).mpr hchain) (pageOffset k)
      (List.mem_map_of_mem hk)
    rwa [nextFree_pageOffset (hlimit k hk), nextFree_pageOffset (hlimit k hk),
      linkTarget_inj] at hlink
  · intro hlink offsets
    have hsame := nextFree_congr hlimit hlink
    have hchain' := hchain.congr hsame
    constructor
    · intro hoffsets
      rwa [hoffsets.unique hchain']
    · intro hoffsets
      rwa [hoffsets.unique hchain]

/-- A store whose metadata page and list are kept is a store with the same free
pages. -/
theorem StoreAt.of_chainKept (h : StoreAt image size free)
    (hlen : image.length ≤ image'.length)
    (hmeta : pageAt image' 0 = pageAt image 0) (hkept : ChainKept image image') :
    StoreAt image' size free where
  size_pos := h.size_pos
  size_le := h.size_le
  meta_size := hmeta ▸ h.meta_size
  in_file := h.in_file.trans hlen
  freelist := h.freelist.frame hlen (by rw [hmeta]) (by rw [hmeta])
    ((h.chainKept_iff hmeta).mp hkept)
  free_lt := h.free_lt

end NickDB
