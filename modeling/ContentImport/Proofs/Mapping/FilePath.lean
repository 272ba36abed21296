import ContentImport.Proofs.Hierarchy.Subclass
import ContentImport.Proofs.Mapping.ParentNames

/-!
Paths of files. A file lies in a row of classes, each with one way on towards the class of all files.
The path of the file names them from the top of the row down, though they are found from below: the
classes next to the row do not lead to files, so a walk upward finds the row as if there were no
others.
-/

set_option autoImplicit false
set_option relaxedAutoImplicit false

namespace ContentImport

open ContentImport.Ontology
open Relation

namespace Graph

variable {elements : List Element} {root : Iri}

private theorem acyclic_of_height (height : Iri → Nat)
    (rises : ∀ c d, StatedBelow elements c d → height c < height d) (c : Iri) :
    ¬ PathUp elements c c := by
  intro around
  have up : TransGen (· < ·) (height c) (height c) := TransGen.lift height rises c c around
  rw [transGen_eq_self] at up
  exact lt_irrefl _ up

/-- Among the classes that a class is stated to be below, one alone is a root or lies below it. -/
def OnlyWayUp (elements : List Element) (root c d : Iri) : Prop :=
  StatedBelow elements c d ∧ (d = root ∨ PathUp elements d root) ∧
    ∀ other, StatedBelow elements c other → other = root ∨ PathUp elements other root → other = d

/-- The classes between a class and a root, the nearest to the class first, where each of them has
one way up. -/
inductive RowBelow (elements : List Element) (root : Iri) : Iri → List Iri → Prop
  | last {c : Iri} (only : OnlyWayUp elements root c root) : RowBelow elements root c []
  | step {c d : Iri} {row : List Iri} (only : OnlyWayUp elements root c d)
      (further : RowBelow elements root d row) : RowBelow elements root c (d :: row)

private theorem exists_rowBelow {c : Iri}
    (below : PathUp elements c root)
    (ways : ∀ d, d = c ∨ PathUp elements c d → PathUp elements d root →
      ∃ up, OnlyWayUp elements root d up) : ∃ row, RowBelow elements root c row := by
  induction below using TransGen.head_induction_on with
  | @single c direct =>
    obtain ⟨up, only⟩ := ways c (.inl rfl) (.single direct)
    obtain rfl := only.2.2 root direct (.inl rfl)
    exact ⟨[], .last only⟩
  | @head c d stated leads ih =>
    obtain ⟨up, only⟩ := ways c (.inl rfl) (.head stated leads)
    obtain rfl := only.2.2 d stated (.inr leads)
    obtain ⟨row, further⟩ := ih fun e above => ways e (.inr (above.elim
      (fun same => same ▸ .single stated) (.head stated)))
    exact ⟨d :: row, .step only further⟩

namespace RowBelow

variable {c : Iri} {row : List Iri}

private theorem pathUp (below : RowBelow elements root c row) : PathUp elements c root := by
  induction below with
  | last only => exact .single only.1
  | step only _ ih => exact .head only.1 ih

private theorem between (below : RowBelow elements root c row) {d : Iri} (listed : d ∈ row) :
    PathUp elements c d ∧ PathUp elements d root := by
  induction below with
  | last _ => cases listed
  | step only further ih =>
    rcases List.mem_cons.mp listed with rfl | later
    · exact ⟨.single only.1, further.pathUp⟩
    · exact ⟨.head only.1 (ih later).1, (ih later).2⟩

private theorem nodup (below : RowBelow elements root c row)
    (acyclic : ∀ c, ¬ PathUp elements c c) :
    row.Nodup := by
  induction below with
  | last _ => exact List.nodup_nil
  | @step c d row only further ih =>
    exact List.nodup_cons.mpr ⟨fun again => acyclic d (further.between again).1, ih⟩

section

variable (strategy : AccessStrategy) (anchors : Anchors) (notices : List String)

private theorem onlyAlong (below : RowBelow elements root c row)
    (acyclic : ∀ c, ¬ PathUp elements c c) :
    let g := ofElements strategy anchors notices elements
    Hierarchy.OnlyAlong (fun c => (g.directSuperclasses c).filter (g.isBelow · root)) c row := by
  intro g
  have above : ∀ c d, d ∈ (g.directSuperclasses c).filter (g.isBelow · root) ↔
      StatedBelow elements c d ∧ d ≠ root ∧ PathUp elements d root := fun c d => by
    rw [List.mem_filter, mem_directSuperclasses_iff, (closures_exact _ _ _ _).below]
  induction below with
  | @last c only =>
    refine .last (List.eq_nil_iff_forall_not_mem.mpr fun d wanted => ?_)
    obtain ⟨stated, differs, leads⟩ := (above c d).mp wanted
    exact differs (only.2.2 d stated (.inr leads))
  | @step c d row only further ih =>
    refine .step (List.perm_singleton.mp ?_) ih
    have once : ((g.directSuperclasses c).filter (g.isBelow · root)).Nodup := by
      rw [directSuperclasses_eq]
      exact (Distinct.nodup_ofList _).filter _
    refine (List.perm_ext_iff_of_nodup once (List.nodup_singleton d)).mpr fun other => ?_
    rw [above, List.mem_singleton]
    constructor
    · exact fun ⟨stated, _, leads⟩ => only.2.2 other stated (.inr leads)
    · rintro rfl
      exact ⟨only.1, fun same => acyclic other (same ▸ further.pathUp), further.pathUp⟩

private theorem filter_allSuperclasses (below : RowBelow elements root c row)
    (acyclic : ∀ c, ¬ PathUp elements c c) :
    let g := ofElements strategy anchors notices elements
    (g.allSuperclasses c).filter (g.isBelow · root) = row := by
  intro g
  have coherent : g.Coherent := ofElements_coherent strategy anchors notices elements
  have isBelow : ∀ d, g.isBelow d root = true ↔ d ≠ root ∧ PathUp elements d root := fun d =>
    (closures_exact strategy anchors notices elements).below root d
  have apart : ∀ a, g.isBelow a root = false →
      ∀ b ∈ g.directSuperclasses a, g.isBelow b root = false := by
    intro a outside b above
    rw [← Bool.not_eq_true, isBelow] at outside ⊢
    have stated := (mem_directSuperclasses_iff strategy anchors notices elements b a).mp above
    rintro ⟨-, leads⟩
    have further : PathUp elements a root := .head stated leads
    exact outside ⟨fun same => acyclic root (same ▸ further), further⟩
  have left : ∀ d ∈ row, d ∈ (g.linked.filter (· ≠ c)).filter (g.isBelow · root) := by
    intro d listed
    obtain ⟨above, leads⟩ := below.between listed
    obtain ⟨e, _, stated⟩ := TransGen.tail'_iff.mp above
    have inside := (coherent.linked d e
      ((mem_directSuperclasses_iff strategy anchors notices elements d e).mpr stated)).1
    have differs : d ≠ c := fun same => acyclic c (same ▸ above)
    have wanted : g.isBelow d root = true :=
      (isBelow d).mpr ⟨fun same => acyclic root (same ▸ leads), leads⟩
    exact List.mem_filter.mpr ⟨List.mem_filter.mpr ⟨inside, decide_eq_true differs⟩, wanted⟩
  rw [Graph.allSuperclasses, Hierarchy.breadthFirst, Hierarchy.filter_ascend apart]
  exact (below.onlyAlong strategy anchors notices acyclic).ascend_eq (below.nodup acyclic) left

end

end RowBelow

end Graph

namespace Mapping.Source

private theorem foldl_path_eq {α : Type} (name : α → String) (c : α) (row : List α)
    (text : String) :
    row.foldl (fun path d => name d ++ "/" ++ path) (name c) ++ "/" ++ text =
      "/".intercalate (((c :: row).map name).reverse ++ [text]) := by
  induction row using List.reverseRecOn with
  | nil => simp
  | append_singleton row d ih =>
    have names : ((c :: (row ++ [d])).map name).reverse ++ [text] =
        name d :: (((c :: row).map name).reverse ++ [text]) := by simp
    rw [names, String.intercalate_cons_of_ne_nil (by simp), ← ih, List.foldl_append,
      List.foldl_cons, List.foldl_nil]
    simp only [String.append_assoc]

section

variable (strategy : AccessStrategy) (anchors : Anchors) (notices : List String)
  (elements : List Element) (options : NodeOptions)

/-- The path of a file follows the row of the first class of files that it is put below, or that it
is of when it is put below none. Where each class of the row has one way up to the class of all
files, the path names the row from the top down, whatever other classes there are above; a file in no
class of files has no path but its uri. -/
theorem fileUri?_row (acyclic : ∀ c, ¬ Graph.PathUp elements c c) :
    let s : Source := ⟨.ofElements strategy anchors notices elements, anchors, options⟩
    ∀ file uri, ((s.graph.element? file).bind fun e => firstText? e anchors.uri) = some uri →
      let classes :=
        if (Graph.statedSuperclasses elements file).isEmpty then s.graph.types file
        else Graph.statedSuperclasses elements file
      ((∀ c ∈ classes, ¬ Graph.PathUp elements c anchors.file) → s.fileUri? file = some uri) ∧
      ∀ before c after, classes = before ++ c :: after →
        (∀ other ∈ before, ¬ Graph.PathUp elements other anchors.file) →
        Graph.PathUp elements c anchors.file →
        (∀ d, d = c ∨ Graph.PathUp elements c d → Graph.PathUp elements d anchors.file →
          ∃ up, Graph.OnlyWayUp elements anchors.file d up) →
        (∃ row, Graph.RowBelow elements anchors.file c row) ∧
          ∀ row, Graph.RowBelow elements anchors.file c row → s.fileUri? file =
            some ("/".intercalate (((c :: row).map s.graph.displayName).reverse ++ [uri])) := by
  intro s file uri stated classes
  have isBelow : ∀ c, s.graph.isBelow c anchors.file = true ↔
      Graph.PathUp elements c anchors.file := fun c => by
    rw [(Graph.closures_exact strategy anchors notices elements).below]
    exact and_iff_right_of_imp fun leads same => acyclic c (same ▸ leads)
  have superclasses : s.graph.directSuperclasses file = Graph.statedSuperclasses elements file :=
    Graph.directSuperclasses_eq strategy anchors notices elements file
  have path : s.fileUri? file = some ((classes.find? (s.graph.isBelow · anchors.file)).elim uri
      fun c => s.filePath c ++ "/" ++ uri) := by
    obtain ⟨e, described, text⟩ := Option.bind_eq_some_iff.mp stated
    have uri' : firstText? e s.anchors.uri = some uri := text
    rw [fileUri?, described, superclasses]
    simp only [Option.bind_eq_bind, Option.bind_some, uri']
    cases classes.find? (s.graph.isBelow · anchors.file) <;> rfl
  constructor
  · intro outside
    have nowhere : classes.find? (s.graph.isBelow · anchors.file) = none :=
      List.find?_eq_none.mpr fun c among leads => outside c among ((isBelow c).mp leads)
    rw [path, nowhere, Option.elim_none]
  · intro before c after split outside leads ways
    have first : classes.find? (s.graph.isBelow · anchors.file) = some c :=
      List.find?_eq_some_iff_append.mpr ⟨(isBelow c).mpr leads, before, after, split,
        fun other among => by
          rw [Bool.not_eq_true', ← Bool.not_eq_true, isBelow]
          exact outside other among⟩
    refine ⟨Graph.exists_rowBelow leads ways, fun row below => ?_⟩
    have found := below.filter_allSuperclasses strategy anchors notices acyclic
    rw [path, first]
    simp only [Option.elim_some, filePath]
    rw [← List.foldl_filter, found, foldl_path_eq]

end

end Mapping.Source

namespace PhotoArchive

def media : Iri := ⟨"e:Media", by decide +kernel⟩

def photo : Iri := ⟨"e:Photo", by decide +kernel⟩

def keepsake : Iri := ⟨"e:Keepsake", by decide +kernel⟩

def thing : Iri := ⟨"e:Thing", by decide +kernel⟩

def portrait : Iri := ⟨"e:portrait", by decide +kernel⟩

open CrossedPalette in
/-- Photos among the media, which are keepsakes as well, and one of them. -/
def elements : List Element :=
  [below media [siteAnchors.file], below photo [keepsake, media], below keepsake [thing],
    ⟨some portrait, [LinkedSite.individual, photo],
      [⟨siteAnchors.uri, .literal (.plain "portrait.jpg")⟩]⟩]

/-- How far up a class is. -/
def height (c : Iri) : Nat :=
  if c = photo then 0 else if c = media ∨ c = keepsake then 1 else 2

private theorem statedBelow_cases {c d : Iri} (stated : Graph.StatedBelow elements c d) :
    c = media ∧ d = siteAnchors.file ∨ c = photo ∧ d = keepsake ∨ c = photo ∧ d = media ∨
      c = keepsake ∧ d = thing := by
  have pairs : ∀ e ∈ elements, ∀ c ∈ e.iri, ∀ d ∈ e.superclasses,
      c = media ∧ d = siteAnchors.file ∨ c = photo ∧ d = keepsake ∨ c = photo ∧ d = media ∨
        c = keepsake ∧ d = thing := by
    decide +kernel
  obtain ⟨e, among, named, held⟩ := stated
  exact pairs e among c named d ((Graph.mem_superclasses_iff e d).mpr held)

private theorem acyclic (c : Iri) : ¬ Graph.PathUp elements c c := by
  refine Graph.acyclic_of_height height (fun c d stated => ?_) c
  rcases statedBelow_cases stated with ⟨rfl, rfl⟩ | ⟨rfl, rfl⟩ | ⟨rfl, rfl⟩ | ⟨rfl, rfl⟩ <;>
    decide +kernel

private theorem statedBelow_of_mem (e : Element) (among : e ∈ elements) {c d : Iri}
    (named : e.iri = some c) (held : d ∈ e.superclasses) : Graph.StatedBelow elements c d :=
  ⟨e, among, named, (Graph.mem_superclasses_iff e d).mp held⟩

private theorem media_file : Graph.StatedBelow elements media siteAnchors.file :=
  statedBelow_of_mem (CrossedPalette.below media [siteAnchors.file]) (by decide +kernel) rfl
    (by decide +kernel)

private theorem photo_media : Graph.StatedBelow elements photo media :=
  statedBelow_of_mem (CrossedPalette.below photo [keepsake, media]) (by decide +kernel) rfl
    (by decide +kernel)

end PhotoArchive

def photoArchive : Mapping.Source where
  graph := Graph.ofElements .inMemory siteAnchors [] PhotoArchive.elements
  anchors := siteAnchors
  options := ⟨false, false⟩

namespace PhotoArchive

private theorem keepsake_outside : ¬ Graph.PathUp elements keepsake siteAnchors.file := by
  have outside : photoArchive.graph.isBelow keepsake siteAnchors.file = false := by
    simp only [Graph.isBelow, Graph.allSuperclasses_eq_ascendWithin]
    decide +kernel
  have below := (Graph.closures_exact .inMemory siteAnchors [] elements).below siteAnchors.file
    keepsake
  intro leads
  have inside := below.mpr ⟨by decide +kernel, leads⟩
  exact absurd (outside.symm.trans inside) (by decide)

private theorem mediaWay : Graph.OnlyWayUp elements siteAnchors.file media siteAnchors.file := by
  refine ⟨media_file, .inl rfl, fun other stated _ => ?_⟩
  rcases statedBelow_cases stated with ⟨-, rfl⟩ | ⟨same, -⟩ | ⟨same, -⟩ | ⟨same, -⟩
  · rfl
  all_goals exact absurd same (by decide +kernel)

private theorem photoWay : Graph.OnlyWayUp elements siteAnchors.file photo media := by
  refine ⟨photo_media, .inr (.single media_file), fun other stated leads => ?_⟩
  rcases statedBelow_cases stated with ⟨same, -⟩ | ⟨-, rfl⟩ | ⟨-, rfl⟩ | ⟨same, -⟩
  · exact absurd same (by decide +kernel)
  · exact absurd leads (not_or.mpr ⟨by decide +kernel, keepsake_outside⟩)
  · rfl
  · exact absurd same (by decide +kernel)

private theorem exists_onlyWayUp {c : Iri} (leads : Graph.PathUp elements c siteAnchors.file) :
    ∃ up, Graph.OnlyWayUp elements siteAnchors.file c up := by
  obtain ⟨d, stated, -⟩ := TransGen.head'_iff.mp leads
  rcases statedBelow_cases stated with ⟨rfl, -⟩ | ⟨rfl, -⟩ | ⟨rfl, -⟩ | ⟨rfl, -⟩
  · exact ⟨_, mediaWay⟩
  · exact ⟨_, photoWay⟩
  · exact ⟨_, photoWay⟩
  · exact absurd leads keepsake_outside

end PhotoArchive

namespace Mapping.Source

open PhotoArchive

/-- The portrait is found under the photos among the media; that photos are keepsakes is left out. -/
theorem fileUri?_row_photoArchive :
    photoArchive.fileUri? portrait = some "Media/Photo/portrait.jpg" ∧
      Graph.StatedBelow elements photo keepsake := by
  have stated : Graph.statedSuperclasses elements portrait = [] ∧
      photoArchive.graph.types portrait = [photo] ∧
      ((photoArchive.graph.element? portrait).bind fun e => firstText? e siteAnchors.uri) =
        some "portrait.jpg" := by
    decide +kernel
  obtain ⟨none, types, uri⟩ := stated
  obtain ⟨-, path⟩ := fileUri?_row .inMemory siteAnchors [] elements ⟨false, false⟩ acyclic
    portrait "portrait.jpg" uri
  have classes : (if (Graph.statedSuperclasses elements portrait).isEmpty then
      photoArchive.graph.types portrait else Graph.statedSuperclasses elements portrait) =
        [] ++ photo :: [] := by
    rw [none, types]
    rfl
  obtain ⟨-, named⟩ := path [] photo [] classes (by simp)
    (.tail (.single photo_media) media_file) fun d _ leads => exists_onlyWayUp leads
  refine ⟨(named [media] (.step photoWay (.last mediaWay))).trans (by decide +kernel), ?_⟩
  exact statedBelow_of_mem (CrossedPalette.below photo [keepsake, media]) (by decide +kernel) rfl
    (by decide +kernel)

end Mapping.Source

end ContentImport
