import Iii.Lib.SortedMap
import Mathlib.Data.List.Lex

/-! Merging the trees of image layers (`erofs/tree.rs`).

A tree is a directory whose entries are kept in the order of their names, at every depth, and the
merge goes over the entries of a layer in that order. Paths are lists of names: a name is one
component of a path, so joining one to a path adds it at the end, and `starts_with` is to have the
path as a prefix. What a regular file's data is does not matter here, and is left open. -/
namespace Iii.Erofs
open Lib

/-- An `OsString` that is one component of a path: not empty, no `/` in it, and not `.`. -/
structure FileName where
  bytes : List UInt8
  component : bytes ≠ [] ∧ (47 : UInt8) ∉ bytes ∧ bytes ≠ [46]

theorem FileName.ext_bytes {a b : FileName} (h : a.bytes.map UInt8.toNat = b.bytes.map UInt8.toNat) : a = b := by
  have hbytes : a.bytes = b.bytes := List.map_injective_iff.mpr (fun _ _ => UInt8.toNat_inj.mp) h
  cases a
  cases b
  cases hbytes
  rfl

instance : LinearOrder FileName := LinearOrder.lift' (fun name => name.bytes.map UInt8.toNat) fun _ _ => FileName.ext_bytes

abbrev Path := List FileName

structure InodeMetadata where
  uid : UInt32
  gid : UInt32
  mode : UInt16
  mtime : UInt64
  mtimeNsec : UInt32
deriving DecidableEq

def defaultDirMode : UInt16 := 0o755

def InodeMetadata.default : InodeMetadata := ⟨0, 0, defaultDirMode, 0, 0⟩

structure Xattr where
  name : List UInt8
  value : List UInt8
deriving DecidableEq

def ascii (text : String) : List UInt8 := text.toList.map fun c => UInt8.ofNat c.toNat

/-- `OPAQUE_XATTR_NAME`, with `OPAQUE_XATTR_VALUE`. -/
def opaqueXattr : Xattr := ⟨ascii "trusted.overlay.opaque", ascii "y"⟩

structure RegularFileNode (D : Type) where
  id : UInt64
  metadata : InodeMetadata
  xattrs : List Xattr
  data : D
  nlink : UInt32

structure SymlinkNode where
  metadata : InodeMetadata
  target : List UInt8

structure DeviceNode where
  metadata : InodeMetadata
  major : UInt32
  minor : UInt32

/-- The nodes that are not directories. -/
inductive Leaf (D : Type) where
  | regularFile (file : RegularFileNode D)
  | symlink (link : SymlinkNode)
  | charDevice (device : DeviceNode)
  | blockDevice (device : DeviceNode)
  | fifo (metadata : InodeMetadata)
  | socket (metadata : InodeMetadata)

inductive TreeNode (D : Type) where
  | leaf (l : Leaf D)
  | directory (metadata : InodeMetadata) (xattrs : List Xattr) (entries : List (FileName × TreeNode D))

abbrev Entries (D : Type) := List (FileName × TreeNode D)

/-- The layer that supplied each path (`HashMap<PathBuf, usize>`). -/
abbrev Provenance := SortedMap Path Nat

variable {D : Type}

@[elab_as_elim]
theorem TreeNode.ind {P : TreeNode D → Prop} (leaf : ∀ l, P (.leaf l))
    (directory : ∀ metadata xattrs entries, (∀ e ∈ entries, P e.2) → P (.directory metadata xattrs entries))
    (node : TreeNode D) : P node :=
  @TreeNode.rec D P (fun entries => ∀ e ∈ entries, P e.2) (fun e => P e.2) leaf directory
    (fun _ h => by cases h)
    (fun _ _ he hrest _ h => by
      rcases List.mem_cons.mp h with rfl | h
      · exact he
      · exact hrest _ h)
    (fun _ _ h => h) node

/-- The entries are in the order of their names, at every depth (`BTreeMap`). -/
inductive TreeNode.Ordered : TreeNode D → Prop where
  | leaf (l : Leaf D) : Ordered (.leaf l)
  | directory {metadata : InodeMetadata} {xattrs : List Xattr} {entries : Entries D}
      (sorted : (entries.map (·.1)).Pairwise (· < ·)) (below : ∀ e ∈ entries, Ordered e.2) :
      Ordered (.directory metadata xattrs entries)

structure DirectoryNode (D : Type) where
  metadata : InodeMetadata
  xattrs : List Xattr
  entries : Entries D
  ordered : (TreeNode.directory metadata xattrs entries).Ordered

structure FileTree (D : Type) where
  root : DirectoryNode D

/-! ### The merge -/

/-- A character device with numbers 0 and 0. -/
def isWhiteoutDevice : Leaf D → Bool
  | .charDevice device => device.major = 0 && device.minor = 0
  | _ => false

def hasOpaqueXattr (xattrs : List Xattr) : Bool := xattrs.any fun x => x = opaqueXattr

/-- `provenance.retain(|k, _| !k.starts_with(path))`. -/
def Provenance.retain (provenance : Provenance) (path : Path) : Provenance :=
  provenance.filter fun k _ => !decide (path <+: k)

mutual
/-- `record_provenance_recursive`. -/
def recordNode (layerIdx : Nat) (path : Path) (provenance : Provenance) : TreeNode D → Provenance
  | .leaf _ => provenance.insert path layerIdx
  | .directory _ _ entries => recordEntries layerIdx path provenance entries
def recordEntries (layerIdx : Nat) (path : Path) (provenance : Provenance) : Entries D → Provenance
  | [] => provenance
  | (name, child) :: rest =>
    recordEntries layerIdx path (recordNode layerIdx (path ++ [name]) provenance child) rest
end

mutual
/-- One round of the loop in `merge_directory_with_provenance`. -/
def mergeEntry (layerIdx : Nat) (path : Path) (base : Entries D) (provenance : Provenance) (name : FileName) :
    TreeNode D → Entries D × Provenance
  | .leaf l =>
    if isWhiteoutDevice l then (Assoc.erase base name, provenance.retain (path ++ [name]))
    else (SortedMap.insertEntry name (.leaf l) base, provenance.insert (path ++ [name]) layerIdx)
  | .directory metadata xattrs entries =>
    match Assoc.get? base name with
    | some (.directory _ _ below) =>
      let cleared := if hasOpaqueXattr xattrs then ([], provenance.retain (path ++ [name])) else (below, provenance)
      let merged := mergeEntries layerIdx (path ++ [name]) cleared.1 cleared.2 entries
      (SortedMap.insertEntry name (.directory metadata xattrs merged.1) base, merged.2)
    | _ =>
      (SortedMap.insertEntry name (.directory metadata xattrs entries) base,
        recordEntries layerIdx (path ++ [name]) (provenance.retain (path ++ [name])) entries)
/-- `merge_directory_with_provenance`, over the entries of the layer. -/
def mergeEntries (layerIdx : Nat) (path : Path) (base : Entries D) (provenance : Provenance) :
    Entries D → Entries D × Provenance
  | [] => (base, provenance)
  | (name, node) :: rest =>
    let merged := mergeEntry layerIdx path base provenance name node
    mergeEntries layerIdx path merged.1 merged.2 rest
end

/-! ### After the merge -/

def stripOpaque (xattrs : List Xattr) : List Xattr := xattrs.filter fun x => x ≠ opaqueXattr

mutual
/-- `strip_opaque_xattrs`. -/
def stripNode : TreeNode D → TreeNode D
  | .leaf l => .leaf l
  | .directory metadata xattrs entries => .directory metadata (stripOpaque xattrs) (stripEntries entries)
def stripEntries : Entries D → Entries D
  | [] => []
  | (name, node) :: rest => (name, stripNode node) :: stripEntries rest
end

abbrev LinkCounts := SortedMap Nat UInt32

mutual
/-- `count_regular_links_in_dir`. -/
def countNode (counts : LinkCounts) : TreeNode D → LinkCounts
  | .leaf (.regularFile file) => counts.insert file.id.toNat ((counts.get? file.id.toNat).getD 0 + 1)
  | .leaf _ => counts
  | .directory _ _ entries => countEntries counts entries
def countEntries (counts : LinkCounts) : Entries D → LinkCounts
  | [] => counts
  | (_, node) :: rest => countEntries (countNode counts node) rest
end

def refreshLeaf (counts : LinkCounts) : Leaf D → Leaf D
  | .regularFile file => .regularFile { file with nlink := (counts.get? file.id.toNat).getD 1 }
  | l => l

mutual
/-- `refresh_regular_nlinks_in_dir`. -/
def refreshNode (counts : LinkCounts) : TreeNode D → TreeNode D
  | .leaf l => .leaf (refreshLeaf counts l)
  | .directory metadata xattrs entries => .directory metadata xattrs (refreshEntries counts entries)
def refreshEntries (counts : LinkCounts) : Entries D → Entries D
  | [] => []
  | (name, node) :: rest => (name, refreshNode counts node) :: refreshEntries counts rest
end

/-! ### The order of the entries is kept -/

def Entries.Ordered (entries : Entries D) : Prop :=
  (entries.map (·.1)).Pairwise (· < ·) ∧ ∀ e ∈ entries, e.2.Ordered

theorem ordered_directory {metadata : InodeMetadata} {xattrs : List Xattr} {entries : Entries D} :
    (TreeNode.directory metadata xattrs entries).Ordered ↔ Entries.Ordered entries := by
  constructor
  · rintro (_ | ⟨sorted, below⟩)
    exact ⟨sorted, below⟩
  · exact fun h => .directory h.1 h.2

namespace Entries.Ordered
variable {entries : Entries D}

theorem nil : Entries.Ordered ([] : Entries D) := ⟨.nil, fun _ h => nomatch h⟩

theorem insert (h : Entries.Ordered entries) (name : FileName) {node : TreeNode D} (hnode : node.Ordered) :
    Entries.Ordered (SortedMap.insertEntry name node entries) := by
  refine ⟨SortedMap.sorted_insertEntry name node h.1, fun e he => ?_⟩
  rcases SortedMap.mem_insertEntry he with rfl | he
  · exact hnode
  · exact h.2 e he

theorem erase (h : Entries.Ordered entries) (name : FileName) : Entries.Ordered (Assoc.erase entries name) :=
  ⟨h.1.sublist (List.filter_sublist.map _), fun e he => h.2 e (List.mem_of_mem_filter he)⟩

theorem get? (h : Entries.Ordered entries) {name : FileName} {node : TreeNode D}
    (hget : Assoc.get? entries name = some node) : node.Ordered := h.2 _ (Assoc.mem_of_get? hget)

theorem below (h : Entries.Ordered entries) {name : FileName} {metadata : InodeMetadata} {xattrs : List Xattr}
    {inner : Entries D} (hget : Assoc.get? entries name = some (.directory metadata xattrs inner)) :
    Entries.Ordered inner := ordered_directory.mp (h.get? hget)

end Entries.Ordered

theorem ordered_mergeEntries_of {us : Entries D}
    (h : ∀ e ∈ us, ∀ layerIdx path (base : Entries D) provenance name, Entries.Ordered base →
      Entries.Ordered (mergeEntry layerIdx path base provenance name e.2).1)
    (layerIdx : Nat) (path : Path) {base : Entries D} (provenance : Provenance) (hbase : Entries.Ordered base) :
    Entries.Ordered (mergeEntries layerIdx path base provenance us).1 := by
  induction us generalizing base provenance with
  | nil => exact hbase
  | cons e us ih =>
    rw [mergeEntries]
    exact ih (fun x hx => h x (List.mem_cons_of_mem _ hx)) _ (h e List.mem_cons_self _ _ _ _ _ hbase)

theorem ordered_mergeEntry {node : TreeNode D} (hnode : node.Ordered) (layerIdx : Nat) (path : Path)
    {base : Entries D} (provenance : Provenance) (name : FileName) (hbase : Entries.Ordered base) :
    Entries.Ordered (mergeEntry layerIdx path base provenance name node).1 := by
  induction node using TreeNode.ind generalizing path base provenance name layerIdx with
  | leaf l =>
    rw [mergeEntry]
    split
    · exact hbase.erase name
    · exact hbase.insert name (.leaf l)
  | directory metadata xattrs entries ih =>
    rw [mergeEntry]
    obtain ⟨hsorted, hbelow⟩ := ordered_directory.mp hnode
    split
    · rename_i below hget
      refine hbase.insert name (ordered_directory.mpr ?_)
      refine ordered_mergeEntries_of (fun e he i path base prov name hb => ih e he (hbelow e he) i path prov name hb) _ _ _ ?_
      split
      · exact .nil
      · exact hbase.below hget
    · exact hbase.insert name hnode

theorem ordered_mergeEntries {us : Entries D} (hus : Entries.Ordered us) (layerIdx : Nat) (path : Path)
    {base : Entries D} (provenance : Provenance) (hbase : Entries.Ordered base) :
    Entries.Ordered (mergeEntries layerIdx path base provenance us).1 :=
  ordered_mergeEntries_of (fun e he i path _ prov name hb => ordered_mergeEntry (hus.2 e he) i path prov name hb)
    layerIdx path provenance hbase

theorem stripEntries_eq (entries : Entries D) : stripEntries entries = entries.map fun e => (e.1, stripNode e.2) := by
  induction entries with
  | nil => rfl
  | cons e rest ih => rw [stripEntries, ih, List.map_cons]

theorem refreshEntries_eq (counts : LinkCounts) (entries : Entries D) :
    refreshEntries counts entries = entries.map fun e => (e.1, refreshNode counts e.2) := by
  induction entries with
  | nil => rfl
  | cons e rest ih => rw [refreshEntries, ih, List.map_cons]

theorem Entries.Ordered.map {entries : Entries D} (h : Entries.Ordered entries) {f : TreeNode D → TreeNode D}
    (hf : ∀ e ∈ entries, (f e.2).Ordered) : Entries.Ordered (entries.map fun e => (e.1, f e.2)) := by
  refine ⟨by rw [List.map_map]; exact h.1, fun e he => ?_⟩
  obtain ⟨x, hx, rfl⟩ := List.mem_map.mp he
  exact hf x hx

theorem TreeNode.Ordered.strip {node : TreeNode D} (h : node.Ordered) : (stripNode node).Ordered := by
  induction node using TreeNode.ind with
  | leaf l => exact h
  | directory metadata xattrs entries ih =>
    have hentries := ordered_directory.mp h
    rw [stripNode, stripEntries_eq, ordered_directory]
    exact hentries.map fun e he => ih e he (hentries.2 e he)

theorem TreeNode.Ordered.refresh {node : TreeNode D} (h : node.Ordered) (counts : LinkCounts) :
    (refreshNode counts node).Ordered := by
  induction node using TreeNode.ind with
  | leaf l => exact .leaf _
  | directory metadata xattrs entries ih =>
    have hentries := ordered_directory.mp h
    rw [refreshNode, refreshEntries_eq, ordered_directory]
    exact hentries.map fun e he => ih e he (hentries.2 e he)

/-! ### Merging all the layers -/

namespace DirectoryNode

def node (dir : DirectoryNode D) : TreeNode D := .directory dir.metadata dir.xattrs dir.entries

/-- `DirectoryNode::new`. -/
def new (metadata : InodeMetadata) : DirectoryNode D := ⟨metadata, [], [], ordered_directory.mpr .nil⟩

def merge (base : DirectoryNode D) (layer : DirectoryNode D) (layerIdx : Nat) (provenance : Provenance) :
    DirectoryNode D × Provenance :=
  (⟨base.metadata, base.xattrs, (mergeEntries layerIdx [] base.entries provenance layer.entries).1,
    ordered_directory.mpr (ordered_mergeEntries (ordered_directory.mp layer.ordered) layerIdx [] provenance
      (ordered_directory.mp base.ordered))⟩,
    (mergeEntries layerIdx [] base.entries provenance layer.entries).2)

def stripOpaqueXattrs (dir : DirectoryNode D) : DirectoryNode D :=
  ⟨dir.metadata, stripOpaque dir.xattrs, stripEntries dir.entries, dir.ordered.strip⟩

/-- `refresh_regular_nlinks`. -/
def refreshRegularNlinks (dir : DirectoryNode D) : DirectoryNode D :=
  ⟨dir.metadata, dir.xattrs, refreshEntries (countEntries .empty dir.entries) dir.entries, dir.ordered.refresh _⟩

end DirectoryNode

/-- `FileTree::new`. -/
def FileTree.new : FileTree D := ⟨.new .default⟩

def mergeAll (layers : List (FileTree D)) : DirectoryNode D × Provenance :=
  layers.zipIdx.foldl (fun merged layer => merged.1.merge layer.1.root layer.2 merged.2) (FileTree.new.root, .empty)

def mergeLayersWithProvenance (layers : List (FileTree D)) : FileTree D × Provenance :=
  (⟨(mergeAll layers).1.stripOpaqueXattrs.refreshRegularNlinks⟩, (mergeAll layers).2)

end Iii.Erofs
