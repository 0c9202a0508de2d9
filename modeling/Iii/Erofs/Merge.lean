import Iii.Erofs.Tree
import Iii.Lib.Layers

/-! What the merge does to the trees, path by path.

A tree is looked at through its paths: at each there is a cell, which says whether it is a
whiteout, a directory or something else. One entry of a layer changes the tree at its name and
below, and the provenance there, as `View.merge` and `View.note` say (`mergeEntry_spec`); so do all
of them, by induction on the entries, and then all layers. The trees after the merge have the same
cells, with the opaque markers gone and the links of each file counted. -/
namespace Iii.Erofs
open Lib Lib.Overlay
variable {D : Type}

/-! ### Trees as views -/

def TreeNode.find : TreeNode D → Path → Option (TreeNode D)
  | node, [] => some node
  | .directory _ _ entries, name :: path => (Assoc.get? entries name).bind (·.find path)
  | .leaf _, _ :: _ => none

/-- A leaf, whatever the number of its links. -/
def Leaf.unlinked : Leaf D → Leaf D
  | .regularFile file => .regularFile { file with nlink := 0 }
  | l => l

abbrev TreeCell (D : Type) := Cell (Leaf D) (InodeMetadata × List Xattr)

abbrev TreeView (D : Type) := View FileName (Leaf D) (InodeMetadata × List Xattr)

def TreeNode.cell : TreeNode D → TreeCell D
  | .leaf l => if isWhiteoutDevice l then .whiteout else .leaf l.unlinked
  | .directory metadata xattrs _ => .directory (metadata, stripOpaque xattrs) (hasOpaqueXattr xattrs)

/-- What is below a node, if there is one. -/
def viewAt (node : Option (TreeNode D)) : TreeView D := fun path => (node.bind (·.find path)).map TreeNode.cell

def TreeNode.view (node : TreeNode D) : TreeView D := viewAt (some node)

/-- The same, without the opaque markers. -/
def plainAt (node : Option (TreeNode D)) : TreeView D := fun path => (viewAt node path).map Cell.plain

section Views
variable {node : TreeNode D} {path : Path} {name : FileName} {metadata : InodeMetadata} {xattrs : List Xattr}
  {entries : Entries D}

theorem view_directory_nil : (TreeNode.directory metadata xattrs entries).view [] =
    some (.directory (metadata, stripOpaque xattrs) (hasOpaqueXattr xattrs)) := rfl

theorem sub_directory (metadata : InodeMetadata) (xattrs : List Xattr) (entries : Entries D) (name : FileName) :
    (TreeNode.directory metadata xattrs entries).view.sub name =
    viewAt (Assoc.get? entries name) := by
  funext path
  rw [View.sub, TreeNode.view, viewAt, viewAt, Option.bind_some, TreeNode.find]

theorem sub_plain_directory (metadata : InodeMetadata) (xattrs : List Xattr) (entries : Entries D) (name : FileName) :
    (plainAt (some (.directory metadata xattrs entries))).sub name =
    plainAt (Assoc.get? entries name) := by
  funext path
  exact congrArg (Option.map Cell.plain) (congrFun (sub_directory metadata xattrs entries name) path)

theorem shaped_viewAt (o : Option (TreeNode D)) : (viewAt o).Shaped := by
  intro q p habove hne
  induction q generalizing o p with
  | nil =>
    obtain ⟨name, p, rfl⟩ := List.exists_cons_of_ne_nil habove.2.symm
    cases o with
    | none => exact absurd rfl hne
    | some node =>
      cases node with
      | leaf l => exact absurd rfl hne
      | directory metadata xattrs entries => exact ⟨_, _, rfl⟩
  | cons name q ih =>
    cases o with
    | none => exact absurd rfl hne
    | some node =>
      cases p with
      | nil => exact absurd habove not_above_nil
      | cons name' p =>
        rcases above_cons.mp habove with hnil | ⟨q', hq, habove'⟩
        · cases hnil
        · cases hq
          cases node with
          | leaf l => exact absurd rfl hne
          | directory metadata xattrs entries =>
            have hsub := congrFun (sub_directory metadata xattrs entries name)
            obtain ⟨m, hides, hdir⟩ := ih (Assoc.get? entries name) p habove' (by rw [← hsub p]; exact hne)
            exact ⟨m, hides, (hsub q).trans hdir⟩

theorem isDir_plainAt {o : Option (TreeNode D)} : (plainAt o).IsDir path ↔ (viewAt o).IsDir path := by
  unfold View.IsDir plainAt
  cases viewAt o path with
  | none => simp
  | some c => cases c <;> simp [Cell.plain]

theorem shaped_plainAt (o : Option (TreeNode D)) : (plainAt o).Shaped := by
  intro q p habove hne
  rw [isDir_plainAt]
  exact shaped_viewAt o q p habove fun hnone => hne (by rw [plainAt, hnone]; rfl)

theorem plainAt_leaf (l : Leaf D) (path : Path) : plainAt (some (.leaf l)) path = (TreeNode.leaf l).view path := by
  cases path with
  | nil => by_cases hwhite : isWhiteoutDevice l <;> simp [plainAt, TreeNode.view, viewAt, TreeNode.find, TreeNode.cell,
      hwhite, Cell.plain]
  | cons name path => rfl

end Views

/-! ### One layer -/

variable {provenance : Provenance}

@[simp] theorem get?_retain {path k : Path} :
    (provenance.retain path).get? k = if path <+: k then none else provenance.get? k := by
  rw [Provenance.retain, SortedMap.get?_filter]
  by_cases hpre : path <+: k
  · cases provenance.get? k <;> simp [hpre]
  · cases provenance.get? k <;> simp [hpre]

theorem not_prefix_of_ne {path : Path} {name other : FileName} (h : other ≠ name) (p : Path) :
    ¬ path ++ [name] <+: path ++ other :: p := by
  rintro ⟨rest, hrest⟩
  rw [List.append_assoc] at hrest
  exact h (List.cons.inj (List.append_cancel_left hrest)).1.symm

/-- What is noted for a tree that is copied whole, below `path`. -/
structure Recorded (layerIdx : Nat) (path : Path) (provenance : Provenance) (view : TreeView D) (after : Provenance) :
    Prop where
  below : ∀ p, after.get? (path ++ p) = ((view p).bind (Cell.noted layerIdx)).or (provenance.get? (path ++ p))
  kept : ∀ k, ¬ path <+: k → after.get? k = provenance.get? k

theorem recordEntries_of {us : Entries D} (hdistinct : Assoc.Distinct us)
    (h : ∀ e ∈ us, ∀ layerIdx path provenance,
      Recorded layerIdx path provenance e.2.view (recordNode layerIdx path provenance e.2))
    (layerIdx : Nat) (path : Path) (provenance : Provenance) :
    (∀ name p, (recordEntries layerIdx path provenance us).get? (path ++ name :: p) =
      ((viewAt (Assoc.get? us name) p).bind (Cell.noted layerIdx)).or (provenance.get? (path ++ name :: p))) ∧
    ∀ k, (∀ name p, k ≠ path ++ name :: p) → (recordEntries layerIdx path provenance us).get? k = provenance.get? k := by
  induction us generalizing provenance with
  | nil => exact ⟨fun name p => by rw [recordEntries]; rfl, fun k _ => by rw [recordEntries]⟩
  | cons e us ih =>
    obtain ⟨name', node⟩ := e
    obtain ⟨hfresh, hrest⟩ := List.nodup_cons.mp hdistinct
    obtain ⟨hnode, hkept⟩ := h (name', node) List.mem_cons_self layerIdx (path ++ [name']) provenance
    obtain ⟨hbelow, hother⟩ := ih hrest (fun x hx => h x (List.mem_cons_of_mem _ hx))
      (recordNode layerIdx (path ++ [name']) provenance node)
    rw [recordEntries]
    refine ⟨fun name p => ?_, fun k hk => ?_⟩
    · rw [hbelow, Assoc.get?_cons]
      by_cases hname : name' = name
      · subst hname
        have hnone : Assoc.get? us name' = none := Assoc.get?_eq_none_iff.mpr hfresh
        have hsplit : path ++ name' :: p = (path ++ [name']) ++ p := by simp
        rw [hnone, if_pos rfl, hsplit, hnode]
        rfl
      · rw [if_neg hname, hkept _ (not_prefix_of_ne (Ne.symm hname) p)]
    · rw [hother k hk, hkept k]
      rintro ⟨p, rfl⟩
      exact hk name' p (by simp)

theorem recordNode_spec {node : TreeNode D} (hnode : node.Ordered) (layerIdx : Nat) (path : Path)
    (provenance : Provenance) :
    Recorded layerIdx path provenance node.view (recordNode layerIdx path provenance node) := by
  induction node using TreeNode.ind generalizing layerIdx path provenance with
  | leaf l =>
    rw [recordNode]
    refine ⟨fun p => ?_, fun k hk => ?_⟩
    · rw [SortedMap.get?_insert]
      cases p with
      | nil =>
        rw [List.append_nil, if_pos rfl]
        by_cases hwhite : isWhiteoutDevice l <;> simp [TreeNode.view, viewAt, TreeNode.find, TreeNode.cell, hwhite,
          Cell.noted]
      | cons name p =>
        rw [if_neg (by simp)]
        rfl
    · rw [SortedMap.get?_insert, if_neg]
      rintro rfl
      exact hk List.prefix_rfl
  | directory metadata xattrs entries ih =>
    obtain ⟨hsorted, hbelow⟩ := ordered_directory.mp hnode
    rw [recordNode]
    obtain ⟨hinside, hother⟩ := recordEntries_of (hsorted.imp ne_of_lt)
      (fun e he i path prov => ih e he (hbelow e he) i path prov) layerIdx path provenance
    refine ⟨fun p => ?_, fun k hk => ?_⟩
    · cases p with
      | nil =>
        rw [List.append_nil, hother path fun name p heq => ?_]
        · rfl
        · simpa using congrArg List.length heq
      | cons name p =>
        rw [hinside, ← sub_directory metadata xattrs]
        rfl
    · refine hother k fun name p heq => hk ?_
      rw [heq]
      exact List.prefix_append path _

/-- What is done to `path` below one name, from the node there to the node after. -/
structure MergedAt (layerIdx : Nat) (path : Path) (layer : TreeView D) (before after : Option (TreeNode D))
    (provenance provenance' : Provenance) : Prop where
  tree : ∀ p, plainAt after p = layer.merge (plainAt before) p
  notes : ∀ p, provenance'.get? (path ++ p) =
    layer.note (plainAt before) layerIdx (fun p => provenance.get? (path ++ p)) p

/-- What one entry of a layer does: at its name, and nowhere else. -/
structure MergedEntry (layerIdx : Nat) (path : Path) (base : Entries D) (provenance : Provenance) (name : FileName)
    (node : TreeNode D) (merged : Entries D × Provenance) : Prop where
  here : MergedAt layerIdx (path ++ [name]) node.view (Assoc.get? base name) (Assoc.get? merged.1 name) provenance merged.2
  other : ∀ name' ≠ name, Assoc.get? merged.1 name' = Assoc.get? base name'
  kept : ∀ k, ¬ path ++ [name] <+: k → merged.2.get? k = provenance.get? k

/-- What the entries of a layer do. -/
structure MergedEntries (layerIdx : Nat) (path : Path) (base : Entries D) (provenance : Provenance) (us : Entries D)
    (merged : Entries D × Provenance) : Prop where
  here : ∀ name, MergedAt layerIdx (path ++ [name]) (viewAt (Assoc.get? us name)) (Assoc.get? base name)
    (Assoc.get? merged.1 name) provenance merged.2
  kept : ∀ k, (∀ name p, k ≠ path ++ name :: p) → merged.2.get? k = provenance.get? k

theorem mergedAt_none {layerIdx : Nat} {path : Path} {node : Option (TreeNode D)} :
    MergedAt layerIdx path (viewAt none) node node provenance provenance where
  tree p := (View.merge_none rfl (shaped_viewAt none)).symm
  notes p := by rw [View.note_none rfl (shaped_viewAt none)]

theorem mergeEntries_of {us : Entries D} (hdistinct : Assoc.Distinct us)
    (h : ∀ e ∈ us, ∀ layerIdx path (base : Entries D) provenance name, Entries.Ordered base →
      MergedEntry layerIdx path base provenance name e.2 (mergeEntry layerIdx path base provenance name e.2))
    (hordered : ∀ e ∈ us, e.2.Ordered) (layerIdx : Nat) (path : Path) {base : Entries D} (provenance : Provenance)
    (hbase : Entries.Ordered base) :
    MergedEntries layerIdx path base provenance us (mergeEntries layerIdx path base provenance us) := by
  induction us generalizing base provenance with
  | nil =>
    rw [mergeEntries]
    exact ⟨fun name => mergedAt_none, fun _ _ => rfl⟩
  | cons e us ih =>
    obtain ⟨name', node⟩ := e
    obtain ⟨hfresh, hrest⟩ := List.nodup_cons.mp hdistinct
    have hfirst := h (name', node) List.mem_cons_self layerIdx path base provenance name' hbase
    have hlater := ih hrest (fun x hx => h x (List.mem_cons_of_mem _ hx)) (fun x hx => hordered x (List.mem_cons_of_mem _ hx))
      (mergeEntry layerIdx path base provenance name' node).2
      (ordered_mergeEntry (hordered (name', node) List.mem_cons_self) layerIdx path provenance name' hbase)
    rw [mergeEntries]
    refine ⟨fun name => ?_, fun k hk => ?_⟩
    · have hhere := hlater.here name
      rw [Assoc.get?_cons]
      by_cases hname : name' = name
      · subst hname
        have hnone : Assoc.get? us name' = none := Assoc.get?_eq_none_iff.mpr hfresh
        rw [hnone] at hhere
        rw [if_pos rfl]
        refine ⟨fun p => ?_, fun p => ?_⟩
        · rw [hhere.tree p, View.merge_none rfl (shaped_viewAt none), hfirst.here.tree p]
          rfl
        · rw [hhere.notes p, View.note_none rfl (shaped_viewAt none), hfirst.here.notes p]
          rfl
      · rw [hfirst.other name (Ne.symm hname)] at hhere
        rw [if_neg hname]
        refine ⟨hhere.tree, fun p => ?_⟩
        have hkept : (fun p => (mergeEntry layerIdx path base provenance name' node).2.get? (path ++ [name] ++ p)) =
            fun p => provenance.get? (path ++ [name] ++ p) := by
          funext p
          refine hfirst.kept _ ?_
          rw [List.append_assoc]
          exact not_prefix_of_ne (Ne.symm hname) p
        rw [hhere.notes p, hkept]
    · rw [hlater.kept k hk, hfirst.kept k]
      rintro ⟨p, rfl⟩
      exact hk name' p (by simp)

/-- A directory that is merged into the one that is there. -/
theorem mergedAt_directory {layerIdx : Nat} {path : Path} {metadata metadata' : InodeMetadata}
    {xattrs xattrs' : List Xattr} {entries below : Entries D} {merged : Entries D × Provenance}
    (h : MergedEntries layerIdx path (if hasOpaqueXattr xattrs then [] else below)
      (if hasOpaqueXattr xattrs then provenance.retain path else provenance) entries merged) :
    MergedAt layerIdx path (TreeNode.directory metadata xattrs entries).view (some (.directory metadata' xattrs' below))
      (some (.directory metadata xattrs merged.1)) provenance merged.2 := by
  have hdir : (plainAt (some (TreeNode.directory metadata' xattrs' below))).IsDir [] := ⟨_, _, rfl⟩
  have hself : merged.2.get? path = if hasOpaqueXattr xattrs then none else provenance.get? path := by
    rw [h.kept path fun name p heq => by simpa using congrArg List.length heq]
    split
    · rw [get?_retain, if_pos List.prefix_rfl]
    · rfl
  cases hmarker : hasOpaqueXattr xattrs with
  | false =>
    have hroot : (TreeNode.directory metadata xattrs entries).view [] = some (.directory (metadata, stripOpaque xattrs) false) := by
      rw [view_directory_nil, hmarker]
    simp only [hmarker, Bool.false_eq_true, if_false] at h hself
    refine ⟨fun p => ?_, fun p => ?_⟩
    · cases p with
      | nil => simp [View.merge, hroot, plainAt, viewAt, TreeNode.find, TreeNode.cell, Cell.plain]
      | cons name p =>
        rw [View.merge_cons hroot hdir, sub_directory, sub_plain_directory, ← (h.here name).tree p]
        exact congrFun (sub_plain_directory metadata xattrs merged.1 name) p
    · cases p with
      | nil => rw [View.note_nil hroot hdir, List.append_nil, hself]
      | cons name p =>
        have hnotes := (h.here name).notes p
        rw [List.append_assoc] at hnotes
        rw [View.note_cons hroot hdir, sub_directory, sub_plain_directory]
        refine hnotes.trans ?_
        simp only [List.append_assoc, List.singleton_append]
  | true =>
    have hroot : (TreeNode.directory metadata xattrs entries).view [] = some (.directory (metadata, stripOpaque xattrs) true) := by
      rw [view_directory_nil, hmarker]
    have hshown : (TreeNode.directory metadata xattrs entries).view.shown [] =
        some (.directory (metadata, stripOpaque xattrs) false) := by rw [View.shown, hroot]; rfl
    have hsub : ∀ name, (TreeNode.directory metadata xattrs entries).view.shown.sub name = viewAt (Assoc.get? entries name) :=
      fun name => sub_directory metadata xattrs entries name
    have hempty : ∀ name, (plainAt (some (TreeNode.directory metadata' xattrs' below))).rootOnly.sub name =
        plainAt (Assoc.get? ([] : Entries D) name) := fun name => rfl
    have hdir' : (plainAt (some (TreeNode.directory metadata' xattrs' below))).rootOnly.IsDir [] := ⟨_, _, rfl⟩
    simp only [hmarker, if_true] at h hself
    refine ⟨fun p => ?_, fun p => ?_⟩
    · rw [View.merge_hiding hroot hdir]
      cases p with
      | nil => simp [View.merge, hshown, plainAt, viewAt, TreeNode.find, TreeNode.cell, Cell.plain]
      | cons name p =>
        rw [View.merge_cons hshown hdir', hsub, hempty, ← (h.here name).tree p]
        exact congrFun (sub_plain_directory metadata xattrs merged.1 name) p
    · rw [View.note_hiding hroot hdir]
      cases p with
      | nil => rw [View.note_nil hshown hdir', List.append_nil, hself]
      | cons name p =>
        have hnotes := (h.here name).notes p
        rw [List.append_assoc] at hnotes
        rw [View.note_cons hshown hdir', hsub, hempty]
        refine hnotes.trans ?_
        have hgone : (fun p => (provenance.retain path).get? (path ++ [name] ++ p)) = fun _ => none := by
          funext p
          rw [get?_retain, if_pos (by rw [List.append_assoc]; exact List.prefix_append path _)]
        rw [hgone]

theorem mergeEntry_spec {node : TreeNode D} (hnode : node.Ordered) (layerIdx : Nat) (path : Path) {base : Entries D}
    (provenance : Provenance) (name : FileName) (hbase : Entries.Ordered base) :
    MergedEntry layerIdx path base provenance name node (mergeEntry layerIdx path base provenance name node) := by
  induction node using TreeNode.ind generalizing layerIdx path base provenance name with
  | leaf l =>
    rw [mergeEntry]
    split
    · rename_i hwhite
      have hroot : (TreeNode.leaf l).view [] = some .whiteout := by
        simp [TreeNode.view, viewAt, TreeNode.find, TreeNode.cell, hwhite]
      refine ⟨⟨fun p => ?_, fun p => ?_⟩, fun name' hne => ?_, fun k hk => ?_⟩
      · rw [View.merge_whiteout hroot (shaped_viewAt _), Assoc.get?_erase, if_pos rfl]
        rfl
      · rw [View.note_whiteout hroot (shaped_viewAt _), get?_retain, if_pos (List.prefix_append _ p)]
      · rw [Assoc.get?_erase, if_neg (Ne.symm hne)]
      · rw [get?_retain, if_neg hk]
    · rename_i hwhite
      have hroot : (TreeNode.leaf l).view [] = some (.leaf l.unlinked) := by
        simp [TreeNode.view, viewAt, TreeNode.find, TreeNode.cell, hwhite]
      refine ⟨⟨fun p => ?_, fun p => ?_⟩, fun name' hne => ?_, fun k hk => ?_⟩
      · rw [View.merge_leaf hroot (shaped_viewAt _), SortedMap.get?_insertEntry _ _ hbase.1, if_pos rfl, plainAt_leaf]
      · rw [View.note_leaf hroot (shaped_viewAt _), SortedMap.get?_insert]
        by_cases hp : p = []
        · rw [if_pos hp, hp, List.append_nil, if_pos rfl]
        · rw [if_neg hp, if_neg fun heq => hp (by simpa using heq)]
      · rw [SortedMap.get?_insertEntry _ _ hbase.1, if_neg (Ne.symm hne)]
      · rw [SortedMap.get?_insert, if_neg]
        rintro rfl
        exact hk List.prefix_rfl
  | directory metadata xattrs entries ih =>
    obtain ⟨hsorted, hbelow⟩ := ordered_directory.mp hnode
    rw [mergeEntry]
    split
    · rename_i metadata' xattrs' below hget
      have hcleared : Entries.Ordered (if hasOpaqueXattr xattrs then [] else below) := by
        split
        · exact .nil
        · exact hbase.below hget
      have hmerged := mergeEntries_of (hsorted.imp ne_of_lt)
        (fun e he i path base prov name hb => ih e he (hbelow e he) i path prov name hb) hbelow layerIdx (path ++ [name])
        (if hasOpaqueXattr xattrs then provenance.retain (path ++ [name]) else provenance) hcleared
      have hsplit : (if hasOpaqueXattr xattrs then ([], provenance.retain (path ++ [name])) else (below, provenance)) =
          (if hasOpaqueXattr xattrs then [] else below,
            if hasOpaqueXattr xattrs then provenance.retain (path ++ [name]) else provenance) := by
        split <;> rfl
      simp only [hsplit]
      refine ⟨?_, fun name' hne => ?_, fun k hk => ?_⟩
      · rw [SortedMap.get?_insertEntry _ _ hbase.1, if_pos rfl, hget]
        exact mergedAt_directory hmerged
      · rw [SortedMap.get?_insertEntry _ _ hbase.1, if_neg (Ne.symm hne)]
      · rw [hmerged.kept k fun name' p heq => hk (heq ▸ List.prefix_append _ _)]
        split
        · rw [get?_retain, if_neg hk]
        · rfl
    · rename_i hget
      have hdir : (TreeNode.directory metadata xattrs entries).view.IsDir [] := ⟨_, _, rfl⟩
      have hnot : ¬ (plainAt (Assoc.get? base name)).IsDir [] := by
        rw [isDir_plainAt]
        rintro ⟨m, hides, h⟩
        cases hbefore : Assoc.get? base name with
        | none =>
          rw [hbefore] at h
          cases h
        | some node =>
          cases node with
          | leaf l =>
            rw [hbefore] at h
            by_cases hwhite : isWhiteoutDevice l <;> simp [viewAt, TreeNode.find, TreeNode.cell, hwhite] at h
          | directory metadata' xattrs' below => exact hget metadata' xattrs' below hbefore
      have hrecorded := recordNode_spec hnode layerIdx (path ++ [name]) (provenance.retain (path ++ [name]))
      rw [recordNode] at hrecorded
      refine ⟨⟨fun p => ?_, fun p => ?_⟩, fun name' hne => ?_, fun k hk => ?_⟩
      · rw [View.merge_fresh hdir hnot (shaped_plainAt _), SortedMap.get?_insertEntry _ _ hbase.1, if_pos rfl]
        rfl
      · rw [View.note_fresh hdir hnot, hrecorded.below p, get?_retain, if_pos (List.prefix_append _ p), Option.or_none]
      · rw [SortedMap.get?_insertEntry _ _ hbase.1, if_neg (Ne.symm hne)]
      · rw [hrecorded.kept k hk, get?_retain, if_neg hk]

end Iii.Erofs
