import Iii.Erofs.Merge

/-! When merging the layers of an image is the overlay reading of them
(`merge_layers_with_provenance`).

The merge leaves the roots of the layers out, copies a directory whole where it meets none, and
writes a path over without forgetting the paths below. So it is the reading exactly when no root
has anything to say, no whiteout is left behind, and what is buried is cleared later. -/
namespace Iii.Erofs
open Lib Lib.Overlay
variable {D : Type}

def FileTree.view (tree : FileTree D) : TreeView D := tree.root.node.view

/-- The root of a new tree. -/
def newRoot : InodeMetadata × List Xattr := (.default, [])

/-! ### All the layers -/

theorem ordered_entries (dir : DirectoryNode D) : Entries.Ordered dir.entries := ordered_directory.mp dir.ordered

theorem mergeAll_concat (layers : List (FileTree D)) (layer : FileTree D) :
    mergeAll (layers ++ [layer]) = (mergeAll layers).1.merge layer.root layers.length (mergeAll layers).2 := by
  simp [mergeAll, List.zipIdx_append]

theorem merged_layer (base layer : DirectoryNode D) (layerIdx : Nat) (provenance : Provenance) :
    MergedEntries layerIdx [] base.entries provenance layer.entries
      (mergeEntries layerIdx [] base.entries provenance layer.entries) :=
  mergeEntries_of ((ordered_entries layer).1.imp ne_of_lt)
    (fun e he i path _ prov name hb => mergeEntry_spec ((ordered_entries layer).2 e he) i path prov name hb)
    (ordered_entries layer).2 layerIdx [] provenance (ordered_entries base)

/-- The root stays as it was. -/
theorem mergeAll_root (layers : List (FileTree D)) :
    (mergeAll layers).1.metadata = .default ∧ (mergeAll layers).1.xattrs = [] := by
  induction layers using List.reverseRecOn with
  | nil => exact ⟨rfl, rfl⟩
  | append_singleton layers layer ih =>
    rw [mergeAll_concat]
    exact ih

/-- What the merge comes to, at every path. -/
theorem mergeAll_spec (layers : List (FileTree D)) (path : Path) :
    plainAt (some (mergeAll layers).1.node) path =
      merged newRoot ((layers.map FileTree.view).map (View.rootless newRoot)) path ∧
    (mergeAll layers).2.get? path = notes newRoot ((layers.map FileTree.view).map (View.rootless newRoot)) path := by
  induction layers using List.reverseRecOn generalizing path with
  | nil => cases path <;> exact ⟨rfl, rfl⟩
  | append_singleton layers layer ih =>
    have hmerged := merged_layer (mergeAll layers).1 layer.root layers.length (mergeAll layers).2
    have hdir : (plainAt (some (mergeAll layers).1.node)).IsDir [] := ⟨_, _, rfl⟩
    have hroot : (layer.view.rootless newRoot) [] = some (.directory newRoot false) := rfl
    have hbase : plainAt (some (mergeAll layers).1.node) =
        merged newRoot ((layers.map FileTree.view).map (View.rootless newRoot)) := funext fun p => (ih p).1
    have hnotes : (mergeAll layers).2.get? = notes newRoot ((layers.map FileTree.view).map (View.rootless newRoot)) :=
      funext fun p => (ih p).2
    have hlayer : ∀ name, (layer.view.rootless newRoot).sub name = viewAt (Assoc.get? layer.root.entries name) :=
      fun name => sub_directory _ _ _ name
    have hsub : ∀ name, (plainAt (some (mergeAll layers).1.node)).sub name =
        plainAt (Assoc.get? (mergeAll layers).1.entries name) := fun name => sub_plain_directory _ _ _ name
    rw [mergeAll_concat, List.map_append, List.map_append, List.map_singleton, List.map_singleton, merged_concat,
      notes_concat, ← View.note_congr (fun q => isDir_merged), List.length_map, List.length_map, ← hbase]
    constructor
    · cases path with
      | nil =>
        obtain ⟨hmetadata, hxattrs⟩ := mergeAll_root layers
        simp only [View.merge, hroot, Cell.plain]
        simp [plainAt, viewAt, TreeNode.find, TreeNode.cell, DirectoryNode.node, DirectoryNode.merge, hmetadata,
          hxattrs, stripOpaque, newRoot, Cell.plain]
      | cons name p =>
        rw [View.merge_cons hroot hdir, hlayer, hsub, ← (hmerged.here name).tree p]
        exact congrFun (sub_plain_directory _ _ _ name) p
    · cases path with
      | nil =>
        rw [View.note_nil hroot hdir, ← hnotes]
        exact hmerged.kept [] fun _ _ heq => by cases heq
      | cons name p =>
        rw [View.note_cons hroot hdir, hlayer, hsub, ← hnotes]
        exact (hmerged.here name).notes p

/-! ### Stripping and counting -/

theorem find_map {f : TreeNode D → TreeNode D} {g : List Xattr → List Xattr}
    (hleaf : ∀ l, ∃ l', f (.leaf l) = .leaf l')
    (hdirectory : ∀ metadata xattrs entries, f (.directory metadata xattrs entries) =
      .directory metadata (g xattrs) (entries.map fun e => (e.1, f e.2))) (node : TreeNode D) (path : Path) :
    (f node).find path = (node.find path).map f := by
  induction path generalizing node with
  | nil => cases node <;> rfl
  | cons name path ih =>
    cases node with
    | leaf l =>
      obtain ⟨l', hl'⟩ := hleaf l
      rw [hl']
      rfl
    | directory metadata xattrs entries =>
      rw [hdirectory, TreeNode.find, TreeNode.find, Assoc.get?_map]
      cases Assoc.get? entries name with
      | none => rfl
      | some child => exact ih child

theorem find_strip (node : TreeNode D) (path : Path) : (stripNode node).find path = (node.find path).map stripNode :=
  find_map (fun l => ⟨l, rfl⟩) (fun _ _ entries => by rw [stripNode, stripEntries_eq]) node path

theorem find_refresh (counts : LinkCounts) (node : TreeNode D) (path : Path) :
    (refreshNode counts node).find path = (node.find path).map (refreshNode counts) :=
  find_map (g := id) (fun l => ⟨refreshLeaf counts l, rfl⟩)
    (fun _ _ entries => by rw [refreshNode, refreshEntries_eq]; rfl) node path

theorem cell_strip (node : TreeNode D) : (stripNode node).cell = node.cell.plain := by
  cases node with
  | leaf l => by_cases hwhite : isWhiteoutDevice l <;> simp [stripNode, TreeNode.cell, hwhite, Cell.plain]
  | directory metadata xattrs entries => simp [stripNode, TreeNode.cell, Cell.plain, stripOpaque, hasOpaqueXattr]

theorem cell_refresh (counts : LinkCounts) (node : TreeNode D) : (refreshNode counts node).cell = node.cell := by
  cases node with
  | leaf l => cases l <;> rfl
  | directory metadata xattrs entries => rfl

/-- The cells of the result are those of the merge, without the opaque markers. -/
theorem view_result (dir : DirectoryNode D) (path : Path) :
    dir.stripOpaqueXattrs.refreshRegularNlinks.node.view path = plainAt (some dir.node) path := by
  have hfind : dir.stripOpaqueXattrs.refreshRegularNlinks.node.find path =
      ((dir.node.find path).map stripNode).map (refreshNode (countEntries .empty dir.stripOpaqueXattrs.entries)) := by
    rw [← find_strip, ← find_refresh]
    rfl
  rw [TreeNode.view, viewAt, Option.bind_some, hfind, plainAt, viewAt, Option.bind_some]
  cases dir.node.find path with
  | none => rfl
  | some node =>
    simp only [Option.map_some]
    rw [cell_refresh, cell_strip]

mutual
/-- The files of a tree, one for each name they have. -/
def TreeNode.fileIds : TreeNode D → List Nat
  | .leaf (.regularFile file) => [file.id.toNat]
  | .leaf _ => []
  | .directory _ _ entries => entriesFileIds entries
def entriesFileIds : Entries D → List Nat
  | [] => []
  | (_, node) :: rest => node.fileIds ++ entriesFileIds rest
end

/-- The counts, after the names of `ids` were counted as well. -/
def Counted (before after : LinkCounts) (ids : List Nat) : Prop :=
  ∀ id, after.get? id = if id ∈ ids then some ((before.get? id).getD 0 + UInt32.ofNat (ids.count id)) else before.get? id

theorem Counted.trans {a b c : LinkCounts} {ids ids' : List Nat} (h : Counted a b ids) (h' : Counted b c ids') :
    Counted a c (ids ++ ids') := by
  intro id
  rw [h' id, h id]
  by_cases hid : id ∈ ids
  · by_cases hid' : id ∈ ids'
    · simp [hid, hid', UInt32.add_assoc]
    · simp [hid, hid', List.count_eq_zero_of_not_mem hid']
  · by_cases hid' : id ∈ ids'
    · simp [hid, hid', List.count_eq_zero_of_not_mem hid]
    · simp [hid, hid']

theorem counted_node (counts : LinkCounts) (node : TreeNode D) : Counted counts (countNode counts node) node.fileIds := by
  induction node using TreeNode.ind generalizing counts with
  | leaf l =>
    cases l with
    | regularFile file =>
      intro id
      rw [countNode, TreeNode.fileIds, SortedMap.get?_insert]
      by_cases hid : file.id.toNat = id
      · simp [hid]
      · simp [hid, Ne.symm hid]
    | _ => exact fun id => rfl
  | directory metadata xattrs entries ih =>
    rw [countNode, TreeNode.fileIds]
    induction entries generalizing counts with
    | nil => exact fun id => rfl
    | cons e rest ihrest =>
      rw [countEntries, entriesFileIds]
      exact (ih e List.mem_cons_self counts).trans
        (ihrest (fun x hx => ih x (List.mem_cons_of_mem _ hx)) (countNode counts e.2))

theorem mem_fileIds {node : TreeNode D} {path : Path} {file : RegularFileNode D}
    (h : node.find path = some (.leaf (.regularFile file))) : file.id.toNat ∈ node.fileIds := by
  have hentries : ∀ {entries : Entries D} {e : FileName × TreeNode D}, e ∈ entries →
      ∀ id ∈ e.2.fileIds, id ∈ entriesFileIds entries := by
    intro entries e he id hid
    induction entries with
    | nil => cases he
    | cons x rest ih =>
      rw [entriesFileIds, List.mem_append]
      rcases List.mem_cons.mp he with rfl | he
      · exact .inl hid
      · exact .inr (ih he)
  induction path generalizing node with
  | nil =>
    cases node with
    | leaf l =>
      cases h
      exact List.mem_singleton_self _
    | directory metadata xattrs entries => cases h
  | cons name path ih =>
    cases node with
    | leaf l => cases h
    | directory metadata xattrs entries =>
      rw [TreeNode.find] at h
      obtain ⟨child, hchild, hfind⟩ := Option.bind_eq_some_iff.mp h
      exact hentries (Assoc.mem_of_get? hchild) _ (ih hfind)

theorem fileIds_refresh (counts : LinkCounts) (node : TreeNode D) : (refreshNode counts node).fileIds = node.fileIds := by
  induction node using TreeNode.ind with
  | leaf l => cases l <;> rfl
  | directory metadata xattrs entries ih =>
    rw [refreshNode, TreeNode.fileIds, TreeNode.fileIds]
    induction entries with
    | nil => rfl
    | cons e rest ihrest =>
      rw [refreshEntries, entriesFileIds, entriesFileIds, ih e List.mem_cons_self,
        ihrest fun x hx => ih x (List.mem_cons_of_mem _ hx)]

/-- Each regular file has as many links as names in the tree. -/
def LinksCounted (node : TreeNode D) : Prop :=
  ∀ path file, node.find path = some (.leaf (.regularFile file)) →
    file.nlink = UInt32.ofNat (node.fileIds.count file.id.toNat)

theorem linksCounted_refresh (dir : DirectoryNode D) : LinksCounted dir.refreshRegularNlinks.node := by
  intro path file hfile
  have hnode : dir.refreshRegularNlinks.node = refreshNode (countNode .empty dir.node) dir.node := rfl
  rw [hnode] at hfile ⊢
  rw [find_refresh] at hfile
  obtain ⟨node, hfind, hrefreshed⟩ := Option.map_eq_some_iff.mp hfile
  cases node with
  | directory metadata xattrs entries => cases hrefreshed
  | leaf l =>
    cases l with
    | regularFile file' =>
      cases hrefreshed
      have hcounted := counted_node (.empty : LinkCounts) dir.node file'.id.toNat
      rw [if_pos (mem_fileIds hfind)] at hcounted
      rw [fileIds_refresh]
      simp [hcounted]
    | _ => cases hrefreshed

/-! ### The overlay reading -/

/-- The tree is what the layers read as an overlay, and the provenance has the layer of every path
of it that is not a directory. -/
structure IsOverlay (layers : List (FileTree D)) (tree : FileTree D) (provenance : Provenance) : Prop where
  reading : IsReading newRoot (layers.map FileTree.view) tree.view provenance.get?
  links : LinksCounted tree.root.node

/-- The merge is the overlay reading exactly when the roots of the layers are plain and everything
that it leaves behind is settled by a later layer. -/
theorem merge_layers_overlay (layers : List (FileTree D)) :
    IsOverlay layers (mergeLayersWithProvenance layers).1 (mergeLayersWithProvenance layers).2 ↔
      RootsPlain newRoot (layers.map FileTree.view) ∧
        Settled newRoot ((layers.map FileTree.view).map (View.rootless newRoot)) := by
  have htree : (mergeLayersWithProvenance layers).1.view =
      merged newRoot ((layers.map FileTree.view).map (View.rootless newRoot)) := by
    funext path
    exact (view_result _ path).trans (mergeAll_spec layers path).1
  have hnotes : (mergeLayersWithProvenance layers).2.get? =
      notes newRoot ((layers.map FileTree.view).map (View.rootless newRoot)) :=
    funext fun path => (mergeAll_spec layers path).2
  have hroots : ∀ u ∈ layers.map (FileTree.view (D := D)), u.IsDir [] := fun u hu => by
    obtain ⟨layer, -, rfl⟩ := List.mem_map.mp hu
    exact ⟨_, _, rfl⟩
  have hshape : ∀ u ∈ layers.map (FileTree.view (D := D)), u.Shaped := fun u hu => by
    obtain ⟨layer, -, rfl⟩ := List.mem_map.mp hu
    exact shaped_viewAt _
  rw [← isReading_iff hroots hshape, ← htree, ← hnotes]
  exact ⟨IsOverlay.reading, fun h => ⟨h, linksCounted_refresh _⟩⟩

/-! ### A whiteout in a new directory -/

def etc : FileName := ⟨ascii "etc", by decide⟩

def hosts : FileName := ⟨ascii "hosts", by decide⟩

/-- `/etc` with a whiteout for `hosts`. -/
def maskingEntries : Entries Unit :=
  [(etc, .directory .default [] [(hosts, .leaf (.charDevice ⟨.default, 0, 0⟩))])]

theorem ordered_masking : Entries.Ordered maskingEntries := by
  refine ⟨List.pairwise_singleton _ _, fun e he => ?_⟩
  rw [List.mem_singleton.mp he]
  refine .directory (List.pairwise_singleton _ _) fun e he => ?_
  rw [List.mem_singleton.mp he]
  exact .leaf _

def maskingLayer : FileTree Unit := ⟨⟨.default, [], maskingEntries, ordered_directory.mpr ordered_masking⟩⟩

theorem whiteout_in_new_directory :
    ¬ IsOverlay [maskingLayer] (mergeLayersWithProvenance [maskingLayer]).1 (mergeLayersWithProvenance [maskingLayer]).2 :=
  fun h => (h.reading.clean [etc, hosts]).1 rfl

end Iii.Erofs
