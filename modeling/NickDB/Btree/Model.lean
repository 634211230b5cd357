import NickDB.Buffer.Model
import NickDB.Support.Words
import NickDB.Support.Loops

/-!
# The B-tree

Nodes of `btree.c`, and the functions that search their separators, allocate
them, free them, create and open a tree and insert into it.  A node is a frame:
its type stands in the first four bytes, and a node of a directory goes on with
the list of its child pages and ends with its separators.  A `btree_node *` is
the number of the frame it points to, and a pointer into the bytes behind the
type is their number, which the source computes in `size_t`.

Every function first refuses a null configuration with `STATUS_NO_CONFIG`, and
`btree_create` and `btree_open` a null manager with `STATUS_NO_MANAGER`; here
both are there.
The manager that the configuration points to is passed next to it.
-/

namespace NickDB

/-! ## Nodes -/

/-- `page_type`. -/
inductive PageType
  | freePage
  | dataPage
  | dirPage
  deriving DecidableEq, Repr

/-- The integer a page type is. -/
def PageType.code : PageType → ℕ
  | .freePage => 0
  | .dataPage => 1
  | .dirPage => 2

/-- `((int_btree_node *)node)->type`: four bytes, least significant first. -/
def nodeType (node : Page) : ℕ :=
  (node ⟨0, by decide⟩).toNat + 256 * (node ⟨1, by decide⟩).toNat +
    256 ^ 2 * (node ⟨2, by decide⟩).toNat +
    256 ^ 3 * (node ⟨3, by decide⟩).toNat

/-- Assignment to `((int_btree_node *)node)->type`. -/
def setNodeType (node : Page) (type : PageType) : Page :=
  fun i => if (i : ℕ) < 4 then UInt8.ofNat (type.code / 256 ^ (i : ℕ))
    else node i

/-- `btree_get_dir_list(node)[n]`: the list starts behind the type. -/
def dirEntry (node : Page) (n : ℕ) (h : 4 + 8 * n + 8 ≤ pageSize) :
    PageIndex :=
  Words.load node (4 + 8 * n) h

theorem firstEntry_fits : 4 + 8 * 0 + 8 ≤ pageSize := by decide

/-- Assignment to `btree_get_dir_list(node)[n]`. -/
def setDirEntry (node : Page) (n : ℕ) (page : PageIndex) : Page :=
  Words.store node (4 + 8 * n) page

/-! ## Configurations -/

/-- `btree_cmp_keys *`: the default comparator or a function of the user. -/
inductive KeyComparator
  | defaultCmpKeys
  | supplied (address : ℕ)
  deriving DecidableEq, Repr

/-- `btree_config`. -/
structure BtreeConfig where
  root : PageIndex
  keySize : UInt64
  comparator : KeyComparator
  deriving DecidableEq, Repr

/-! ## Separators -/

/-- `END_OF_PAGE`, and `START_OF_SEP`: the number of bytes behind the type. -/
def endOfPage : UInt64 := 4096 - 4

/-- `RIGHT_SEP`: the way from the left separator of a pair to the right one. -/
def rightSep (keySize : UInt64) : UInt64 := keySize

/-- `btree_get_sep_list`. -/
def btreeGetSepList (config : BtreeConfig) : UInt64 :=
  endOfPage - config.keySize

/-- `btree_get_sep`: the left separator of a pair. -/
def btreeGetSep (config : BtreeConfig) (index : UInt64) : UInt64 :=
  endOfPage - config.keySize * 2 * (index + 1)

/-- `((int_btree_node *)node)->bytes[place]`, inside the node. -/
def nodeByte (node : Page) (place : UInt64) : Option UInt8 :=
  if h : 4 + place.toNat < pageSize then some (node ⟨4 + place.toNat, h⟩)
  else none

/-! ## Looking for the place of a separator -/

theorem nodeBytes_fits {place length i : ℕ}
    (h : 4 + place + length ≤ pageSize) (hi : i < length) :
    4 + place + i < pageSize := by omega

/-- The bytes from `((int_btree_node *)node)->bytes[place]` on, inside the
node. -/
def nodeBytes (node : Page) (place length : UInt64) : Option (List UInt8) :=
  if h : 4 + place.toNat + length.toNat ≤ pageSize then
    some (List.ofFn fun i : Fin length.toNat =>
      node ⟨4 + place.toNat + i, nodeBytes_fits h i.isLt⟩)
  else none

/-- The bytes of the variable `blank`, which holds an address. -/
def blankBytes (blank length : UInt64) : Option (List UInt8) :=
  if length.toNat ≤ 8 then
    some ((List.range length.toNat).map fun i =>
      UInt8.ofNat (blank.toNat / 256 ^ i))
  else none

/-- The bytes that the argument `sep` points to. -/
def sepBytes (sep : List UInt8) (length : UInt64) : Option (List UInt8) :=
  if length.toNat ≤ sep.length then some (sep.take length.toNat) else none

/-- How the first two bytes that differ compare. -/
def compareBytes : List UInt8 → List UInt8 → Ordering
  | x :: first, y :: second =>
      if x < y then .lt else if y < x then .gt else compareBytes first second
  | _, _ => .eq

/-- `memcmp`: the sign of its result, where all bytes can be read. -/
def memcmp (first second : Option (List UInt8)) : Option Ordering :=
  match first, second with
  | some first, some second => some (compareBytes first second)
  | _, _ => none

/-- The local variables of `btree_insert_sep_value` that its loop changes. -/
structure SepCursor where
  index : UInt64
  sepStart : UInt64
  ltflag : Bool
  gtflag : Bool
  deriving DecidableEq, Repr

/-- The variables before the loop. -/
def SepCursor.first (config : BtreeConfig) : SepCursor where
  index := 0
  sepStart := btreeGetSep config 0
  ltflag := false
  gtflag := false

/-- The flags once the separator has been compared, in either branch. -/
def SepCursor.flag (cursor : SepCursor) : Ordering → SepCursor
  | .lt => { cursor with ltflag := true }
  | .gt => { cursor with gtflag := true }
  | .eq => cursor

/-- `move on`: from a left separator to the right one, and from there to the
next pair. -/
def SepCursor.moveOn (config : BtreeConfig) (cursor : SepCursor) : SepCursor :=
  if cursor.index % 2 = 0 then
    { cursor with sepStart := cursor.sepStart + rightSep config.keySize }
  else
    { cursor with
      index := cursor.index + 1
      sepStart := btreeGetSep config (cursor.index + 1) }

/-- The test of the loop.  It compares with the variable `blank` itself, not
with the zeros that `blank` points to. -/
def sepTest (blank : UInt64) (config : BtreeConfig) (node : Page)
    (cursor : SepCursor) : Option Bool :=
  match memcmp (blankBytes blank config.keySize)
      (nodeBytes node cursor.sepStart config.keySize) with
  | none => none
  | some order => some (decide (order ≠ .eq))

/-- The body of the loop. -/
def sepTurn (config : BtreeConfig) (node : Page) (sep : List UInt8)
    (cursor : SepCursor) : Option SepCursor :=
  match memcmp (sepBytes sep config.keySize)
      (nodeBytes node cursor.sepStart config.keySize) with
  | none => none
  | some order => some ((cursor.flag order).moveOn config)

/-- `btree_insert_sep_value`, as far as it is written, where `calloc` has
returned the address `blank`. -/
def btreeInsertSepValue (turns : ℕ) (blank : UInt64) (config : BtreeConfig)
    (node : Option Page) (sep : Option (List UInt8)) : Option Status :=
  match node, sep with
  | some node, some sep =>
      match Loops.whileLoop (sepTest blank config node)
          (sepTurn config node sep) turns (.first config) with
      | none => none
      | some _ => some .ok
  | _, _ => some .err

variable {frames : ℕ}

/-! ## Allocating and freeing nodes -/

/-- `btree_alloc_node`: the status, what is left in `*node`, the manager and
the file. -/
def btreeAllocNode (activation : ℕ) (manager : BufferManager frames)
    (file : StoreFile) (type : PageType) :
    Option (Status × Option (Fin frames) × BufferManager frames × StoreFile) :=
  if type ≠ .dirPage ∧ type ≠ .dataPage then some (.err, none, manager, file)
  else
    match buffAllocFrame activation manager file true with
    | none => none
    | some (frameAlloc, pageFrame, manager, file) =>
        if frameAlloc ≠ .ok then some (frameAlloc, none, manager, file)
        else
          match pageFrame with
          | none => none
          | some (frame, _) =>
              let manager := manager.setBuffer frame
                (setNodeType (manager.buffer frame) type)
              some (.ok, some frame, manager, file)

/-- `btree_free_node`: the status, the manager and the file. -/
def btreeFreeNode (manager : BufferManager frames) (file : StoreFile)
    (node : Option (Fin frames)) :
    Option (Status × BufferManager frames × StoreFile) :=
  match node with
  | none => some (.ok, manager, file)
  | some node => buffFreeFrame manager file (some node)

/-! ## Creating a tree -/

/-- The part of `btree_create` that allocates the root and its leaf and sets the
pointer to the leaf.  The two calls of `buff_pin` run at the places `rootPin`
and `leafPin` on the stack. -/
def btreeBuild (rootPin leafPin : ℕ) (config : BtreeConfig)
    (manager : BufferManager frames) (file : StoreFile) (keySize : UInt64)
    (comparator : Option KeyComparator) :
    Option (Status × BtreeConfig × Option (Fin frames × Fin frames) ×
      BufferManager frames × StoreFile) :=
  let config := { config with keySize := keySize }
  match btreeAllocNode rootPin manager file .dirPage with
  | none => none
  | some (rootStatus, rootFrame, manager, file) =>
      if rootStatus ≠ .ok then some (rootStatus, config, none, manager, file)
      else
        match rootFrame with
        | none => none
        | some rootFrame =>
            let config :=
              { config with
                root := (manager.metaframes rootFrame).index
                comparator := comparator.getD .defaultCmpKeys }
            match btreeAllocNode leafPin manager file .dataPage with
            | none => none
            | some (leafStatus, leafFrame, manager, file) =>
                if leafStatus ≠ .ok then
                  some (leafStatus, config, none, manager, file)
                else
                  match leafFrame with
                  | none => none
                  | some leafFrame =>
                      let leafPage := (manager.metaframes leafFrame).index
                      -- the pointer goes to the second place of the list
                      let manager := manager.setBuffer rootFrame
                        (setDirEntry (manager.buffer rootFrame) 1 leafPage)
                      some (.ok, config, some (rootFrame, leafFrame), manager,
                        file)

/-- `btree_create`: the status, the configuration, the manager and the file. -/
def btreeCreate (rootPin leafPin : ℕ) (config : BtreeConfig)
    (manager : BufferManager frames) (file : StoreFile) (keySize : UInt64)
    (comparator : Option KeyComparator) :
    Option (Status × BtreeConfig × BufferManager frames × StoreFile) :=
  match btreeBuild rootPin leafPin config manager file keySize comparator with
  | none => none
  | some (status, config, none, manager, file) =>
      some (status, config, manager, file)
  | some (_, config, some (rootFrame, leafFrame), manager, file) =>
      match buffUnpin manager leafFrame with
      | none => none
      | some (leafUnpin, manager) =>
          if leafUnpin ≠ .ok then some (leafUnpin, config, manager, file)
          else
            match buffUnpin manager rootFrame with
            | none => none
            | some (rootUnpin, manager) =>
                if rootUnpin ≠ .ok then some (rootUnpin, config, manager, file)
                else some (.ok, config, manager, file)

/-! ## Opening a tree and inserting into it -/

/-- `btree_open`: the status and the configuration. -/
def btreeOpen (config : BtreeConfig) (root : PageIndex) (keySize : UInt64)
    (comparator : Option KeyComparator) : Status × BtreeConfig :=
  if root < 1 ∨ keySize < 1 then (.err, config)
  else
    (.ok, { root := root, keySize := keySize
            comparator := comparator.getD .defaultCmpKeys })

/-- `btree_insert`, as far as it is written: the status, the manager and the
file; `key` and `value` say whether the pointers are not null.  The call of
`btree_get_sep_list` lacks the configuration, which is put in here.  The two
calls of `buff_pin` run at the places `rootPin` and `dataPin` on the stack. -/
def btreeInsert (rootPin dataPin : ℕ) (config : BtreeConfig)
    (manager : BufferManager frames) (file : StoreFile) (key value : Bool)
    (valueLength : UInt64) :
    Option (Status × BufferManager frames × StoreFile) :=
  if key = false then some (.err, manager, file)
  else if valueLength = 0 ∧ value = true then some (.err, manager, file)
  else
    match buffPin rootPin manager file config.root with
    | none => none
    | some (rootStatus, rootFrame, manager, file) =>
        if rootStatus ≠ .ok then some (rootStatus, manager, file)
        else
          match rootFrame with
          | none => some (rootStatus, manager, file)
          | some rootNode =>
              match nodeByte (manager.buffer rootNode)
                  (btreeGetSepList config) with
              | none => none
              | some separator =>
                  if separator = 0 then
                    let firstPage :=
                      dirEntry (manager.buffer rootNode) 0 (by decide)
                    match buffPin dataPin manager file firstPage with
                    | none => none
                    | some (datapagePin, _, manager, file) =>
                        if datapagePin ≠ .ok then
                          some (datapagePin, manager, file)
                        else some (.ok, manager, file)
                  else some (.ok, manager, file)

end NickDB
