import Playbit.Graph.Roots
import Playbit.Build.Runtime

/-!
# Listing the dependencies of several packages

`--list-deps` lists the packages given on the command line together with their dependencies.  For
most of its modes the same dependencies are followed everywhere.  Without an argument, and with
`short`, it follows all dependencies and build tools of a package from the command line, but below
them only what is needed at run time.

A package on the command line may be a dependency of an earlier one.  Then it is in the list when
its turn comes, and is not visited again: what it needs only to be built is missing, although it is
there when the package comes first or is listed alone.

`listsUnion_iff` says for which lists of packages this does not happen: just for these is the list
the union of what is listed for each of them (`ListedFor`), each package once.
-/

namespace Pbuild

open Python DepthFirst

/-- `q` is listed for `p`. -/
def ListedFor (pkgs : PkgTable) (what : Text) (p q : PkgName) : Prop :=
  RootReach (fun p => (pkgs p).listed (runtimeFlags what).1)
    (fun p => (pkgs p).listed (runtimeFlags what).2) p q

/-- The list for several packages has what is listed for each of them alone, each package once. -/
def ListsUnion (pkgs : PkgTable) (n : ℕ) (tops : List PkgName) (what : Text) : Prop :=
  ∃ rows, listDeps pkgs n tops what = some rows ∧ (rows.map Prod.fst).Nodup ∧
    ∀ q, q ∈ rows.map Prod.fst ↔
      ∃ p ∈ tops, ∃ rows', listDeps pkgs n [p] what = some rows' ∧ q ∈ rows'.map Prod.fst

section ListDeps

variable {pkgs : PkgTable} {what : Text} {n : ℕ}

theorem listed_true_subset (p : Pkg) : ∀ r, p.listed true ⊆ p.listed r
  | true => List.Subset.refl _
  | false => by
    intro q hq
    obtain ⟨d, hd, rfl⟩ := List.mem_map.1 hq
    exact List.mem_append_left _ (List.mem_map.2 ⟨d, List.mem_of_mem_filter hd, rfl⟩)

theorem listed_subset_false (p : Pkg) : ∀ r, p.listed r ⊆ p.listed false
  | true => listed_true_subset p false
  | false => List.Subset.refl _

/-- Below the packages of the command line nothing else is followed. -/
theorem listed_subset (pkgs : PkgTable) (what : Text) (p : PkgName) :
    (pkgs p).listed (runtimeFlags what).2 ⊆ (pkgs p).listed (runtimeFlags what).1 := by
  unfold runtimeFlags
  split_ifs
  · exact List.Subset.refl _
  · exact listed_true_subset _ _

/-- The packages that are listed, from the last one on. -/
theorem map_fst_listDeps (pkgs : PkgTable) (n : ℕ) (tops : List PkgName) (what : Text) :
    (listDeps pkgs (n + 1) tops what).map (·.map Prod.fst) =
      (tops.foldlM (visitRoot (fun p => (pkgs p).listed (runtimeFlags what).1)
        (fun p => (pkgs p).listed (runtimeFlags what).2) n) []).map List.reverse := by
  have hvisit : ∀ (s : Listing) (p : PkgName),
      (visitListed pkgs (runtimeFlags what).2 (n + 1) (runtimeFlags what).1 s p).map
          Listing.deplist =
        visitRoot (fun p => (pkgs p).listed (runtimeFlags what).1)
          (fun p => (pkgs p).listed (runtimeFlags what).2) n s.deplist p := by
    intro s p
    rw [visitRoot, deplist_visitListed_succ
      (f := fun l w => postorder (fun p => (pkgs p).listed (runtimeFlags what).2) n w l)
      (deplist_visitListed pkgs _ n)]
    split_ifs <;> rfl
  have hfold := Machine.map_foldlM hvisit tops {}
  rw [listDeps, ← hfold, Option.map_map, Option.map_map]
  congr 1
  funext s
  change ((s.deplist.reverse.map (listedRow s)).map Prod.fst) = s.deplist.reverse
  rw [List.map_map]
  exact List.map_id _

variable {U : List PkgName} (hU : ∀ p q, q ∈ (pkgs p).listed false → p ∈ U)
  (hacyc : ∀ p, ¬ Relation.TransGen (Edge fun p => (pkgs p).listed false) p p)
  (hn : U.length < n)

include hU hacyc hn

/-- **What is listed**: each package once, those of the command line that are expanded, and what is
listed for them. -/
theorem listDeps_spec (tops : List PkgName) (what : Text) :
    ∃ rows, listDeps pkgs n tops what = some rows ∧ (rows.map Prod.fst).Nodup ∧
      ∀ q, q ∈ rows.map Prod.fst ↔
        ∃ p ∈ expanded (ListedFor pkgs what) tops, ListedFor pkgs what p q := by
  obtain ⟨m, rfl⟩ := Nat.exists_eq_add_of_le' (Nat.one_le_of_lt hn)
  have hU' : ∀ p q, q ∈ (pkgs p).listed (runtimeFlags what).1 → p ∈ U := fun p q hq =>
    hU p q (listed_subset_false _ _ hq)
  have hacyc' : ∀ p, ¬ Relation.TransGen
      (Edge fun p => (pkgs p).listed (runtimeFlags what).1) p p := fun p hcyc =>
    hacyc p (hcyc.lift id fun _ _ hq => listed_subset_false _ _ hq)
  obtain ⟨l, hl⟩ := exists_visitRoots (listed_subset pkgs what) hU' hacyc' (Nat.le_of_lt_succ hn)
    tops []
  have hlists := Lists.of_visitRoots (listed_subset pkgs what) hacyc' hl
  have hrows := map_fst_listDeps pkgs m tops what
  rw [hl, Option.map_some] at hrows
  obtain ⟨rows, hrows, hnames⟩ := Option.map_eq_some_iff.1 hrows
  refine ⟨rows, hrows, hnames ▸ List.nodup_reverse.2 hlists.nodup, fun q => ?_⟩
  rw [hnames, List.mem_reverse, hlists.mem]
  exact or_iff_right List.not_mem_nil

theorem mem_listDeps_singleton (p q : PkgName) (what : Text) :
    (∃ rows, listDeps pkgs n [p] what = some rows ∧ q ∈ rows.map Prod.fst) ↔
      ListedFor pkgs what p q := by
  obtain ⟨rows, hrows, -, hmem⟩ := listDeps_spec hU hacyc hn [p] what
  have hone : (∃ x ∈ expanded (ListedFor pkgs what) [p], ListedFor pkgs what x q) ↔
      ListedFor pkgs what p q := by
    simp [expanded]
  rw [← hone, ← hmem, hrows]
  simp

/-- **When the list is the union.**  With `run`, `runtime` and `all` it always is.  Otherwise it is
just when every dependency and build tool of a package of the command line is listed for a package
that is expanded: one that is not listed for an expanded package before it. -/
theorem listsUnion_iff (tops : List PkgName) (what : Text) :
    ListsUnion pkgs n tops what ↔
      (runtimeFlags what).1 = (runtimeFlags what).2 ∨
        ∀ p ∈ tops, ∀ d ∈ (pkgs p).listed (runtimeFlags what).1,
          ∃ q ∈ expanded (ListedFor pkgs what) tops, ListedFor pkgs what q d := by
  obtain ⟨rows, hrows, hnodup, hmem⟩ := listDeps_spec hU hacyc hn tops what
  have hunion : ListsUnion pkgs n tops what ↔
      ∀ q, (∃ p ∈ expanded (ListedFor pkgs what) tops, ListedFor pkgs what p q) ↔
        ∃ p ∈ tops, ListedFor pkgs what p q := by
    simp only [ListsUnion, hrows, Option.some.injEq, exists_eq_left', hnodup, true_and, hmem,
      mem_listDeps_singleton hU hacyc hn]
  have halways : (runtimeFlags what).1 = (runtimeFlags what).2 →
      ∀ p ∈ tops, ∀ d ∈ (pkgs p).listed (runtimeFlags what).1,
        ∃ q ∈ expanded (ListedFor pkgs what) tops, ListedFor pkgs what q d := by
    intro hflags p hp d hd
    rw [hflags] at hd
    exact exists_expanded_of_succ (listed_subset pkgs what) hp hd
  rw [hunion, or_iff_right_of_imp halways]
  exact expanded_union_iff (listed_subset pkgs what) tops

end ListDeps

/-- `app` needs `lib`, and `lib` needs `headers`, but not at run time. -/
def headersPkgs : PkgTable := fun p =>
  if p = "app".toList then { deps := [⟨"lib", [], none⟩] }
  else if p = "lib".toList then { deps := [⟨"headers", [], none⟩] }
  else {}

theorem mem_listed_headersPkgs {p q : PkgName} (h : q ∈ (headersPkgs p).listed false) :
    p = "app".toList ∧ q = "lib".toList ∨ p = "lib".toList ∧ q = "headers".toList := by
  unfold headersPkgs at h
  split_ifs at h with happ hlib
  · exact .inl ⟨happ, List.mem_singleton.1 h⟩
  · exact .inr ⟨hlib, List.mem_singleton.1 h⟩
  · exact absurd h List.not_mem_nil

/-- The list for both packages is the union at run time, and without an argument when `lib` is the
first of them. -/
theorem listsUnion_headersPkgs :
    ListsUnion headersPkgs 3 ["app".toList, "lib".toList] "run".toList ∧
      ListsUnion headersPkgs 3 ["lib".toList, "app".toList] [] := by
  have hU : ∀ p q, q ∈ (headersPkgs p).listed false → p ∈ ["app".toList, "lib".toList] := by
    intro p q hq
    rcases mem_listed_headersPkgs hq with ⟨rfl, -⟩ | ⟨rfl, -⟩ <;> decide
  have hacyc : ∀ p, ¬ Relation.TransGen (Edge fun p => (headersPkgs p).listed false) p p := by
    refine not_transGen_self
      (fun p => if p = "app".toList then 2 else if p = "lib".toList then 1 else 0) ?_
    intro p q hq
    rcases mem_listed_headersPkgs hq with ⟨rfl, rfl⟩ | ⟨rfl, rfl⟩ <;> decide
  refine ⟨(listsUnion_iff hU hacyc (by decide) _ _).2 (.inl (by decide)),
    (listsUnion_iff hU hacyc (by decide) _ _).2 (.inr fun p _ d hd => ?_)⟩
  have hlib : "lib".toList ∈
      expanded (ListedFor headersPkgs []) ["lib".toList, "app".toList] := by
    simp only [expanded, List.foldl_cons, List.foldl_nil, List.not_mem_nil, false_and,
      exists_false, if_false, List.nil_append]
    split_ifs <;> simp
  refine ⟨_, hlib, ?_⟩
  rcases mem_listed_headersPkgs hd with ⟨-, rfl⟩ | ⟨-, rfl⟩
  · exact RootReach.refl _
  · exact .inr ⟨"headers".toList, by decide, .refl⟩

/-- Without an argument, the order makes a difference: `headers` is listed for `lib`, and for both
packages when `lib` is the first, but not when it is the second. -/
theorem order_of_arguments_matters :
    (listDeps headersPkgs 3 ["lib".toList] []).map (·.map Prod.fst) =
      some ["lib".toList, "headers".toList] ∧
    (listDeps headersPkgs 3 ["lib".toList, "app".toList] []).map (·.map Prod.fst) =
      some ["app".toList, "lib".toList, "headers".toList] ∧
    (listDeps headersPkgs 3 ["app".toList, "lib".toList] []).map (·.map Prod.fst) =
      some ["app".toList, "lib".toList] ∧
    ¬ ListsUnion headersPkgs 3 ["app".toList, "lib".toList] [] := by
  have hlib : (listDeps headersPkgs 3 ["lib".toList] []).map (·.map Prod.fst) =
      some ["lib".toList, "headers".toList] := by decide
  have hboth : (listDeps headersPkgs 3 ["app".toList, "lib".toList] []).map (·.map Prod.fst) =
      some ["app".toList, "lib".toList] := by decide
  refine ⟨hlib, by decide, hboth, ?_⟩
  rintro ⟨rows, hrows, -, hmem⟩
  rw [hrows] at hboth
  have hnames : rows.map Prod.fst = ["app".toList, "lib".toList] := Option.some.inj hboth
  obtain ⟨rows', hrows', hnames'⟩ := Option.map_eq_some_iff.1 hlib
  have hheaders := (hmem "headers".toList).2
    ⟨"lib".toList, by decide, rows', hrows', hnames' ▸ by decide⟩
  rw [hnames] at hheaders
  exact absurd hheaders (by decide)

end Pbuild
