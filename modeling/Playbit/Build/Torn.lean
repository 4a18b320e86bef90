import Playbit.Build.Stamp
import Playbit.Build.Verdict

/-!
# Torn stamps

`write_build_stamp` writes the stamp in place, so a process that dies while writing leaves the
beginning of the text behind.  Wherever the text was cut, `read_build_stamp` finds an entry that is
missing, that is no entry, or that has too short a checksum: the build is done again.  The only
cut that goes unnoticed is the one before the last newline, and there nothing is lost.

The argument goes through the places where a line can be cut (`cut_stampLines`) and what is read of
the lines before it (`depChecksums_torn`), and ends with `torn_stamp_needs_build`.
-/

namespace Pbuild

open Python

/-- A hexadecimal digit, in lower case. -/
def isHexDigit (c : Char) : Bool := c.isDigit || ('a' ≤ c && c ≤ 'f')

/-- A hexadecimal SHA-256 digest. -/
def IsDigest (t : Text) : Prop := t.length = 64 ∧ t.all isHexDigit = true

instance (t : Text) : Decidable (IsDigest t) := inferInstanceAs (Decidable (_ ∧ _))

theorem isSpace_of_isHexDigit {c : Char} (h : isHexDigit c = true) : isSpace c = false := by
  have hrange : 48 ≤ c.toNat ∧ c.toNat ≤ 102 := by
    simp only [isHexDigit, Char.isDigit, Bool.or_eq_true, Bool.and_eq_true, decide_eq_true_eq,
      Char.le_def, UInt32.le_iff_toNat_le] at h
    change (48 ≤ c.toNat ∧ c.toNat ≤ 57) ∨ (97 ≤ c.toNat ∧ c.toNat ≤ 102) at h
    omega
  simp only [isSpace, Bool.or_eq_false_iff, Bool.and_eq_false_iff, decide_eq_false_iff_not,
    beq_eq_false_iff_ne]
  omega

theorem IsDigest.isWord {t : Text} (h : IsDigest t) : IsWord t := by
  refine ⟨fun hnil => ?_, fun c hc => isSpace_of_isHexDigit (List.all_eq_true.1 h.2 c hc)⟩
  have hlen := h.1
  rw [hnil] at hlen
  cases hlen

/-! ### Where a text can be cut -/

theorem cut_append {α : Type*} {p t u : List α} (h : p <+: t ++ u) :
    (p <+: t ∧ p ≠ t) ∨ ∃ q, p = t ++ q ∧ q <+: u := by
  by_cases heq : p = t
  · exact .inr ⟨[], by simp [heq], List.nil_prefix⟩
  · rcases List.prefix_or_prefix_of_prefix h (List.prefix_append t u) with hp | ⟨q, rfl⟩
    · exact .inl ⟨hp, heq⟩
    · exact .inr ⟨q, rfl, (List.prefix_append_right_inj t).1 h⟩

/-- The lines are cut behind the last one, or within one of them. -/
theorem cut_stampLines {deps : List (Text × Text)} {q : Text} (h : q <+: deps.flatMap stampLine) :
    q = deps.flatMap stampLine ∨
      ∃ l₁ e l₂ u, deps = l₁ ++ e :: l₂ ∧ q = l₁.flatMap stampLine ++ u ∧
        u <+: e.1 ++ ' ' :: e.2 := by
  induction deps generalizing q with
  | nil => exact .inl (List.prefix_nil.1 h)
  | cons e deps ih =>
    rw [List.flatMap_cons] at h
    rcases cut_append h with ⟨hpre, hne⟩ | ⟨q', rfl, hq'⟩
    · refine .inr ⟨[], e, deps, q, rfl, rfl, ?_⟩
      rw [stampLine_eq] at hpre hne
      rcases List.prefix_concat_iff.1 hpre with heq | hpre
      · exact absurd heq hne
      · exact hpre
    · rcases ih hq' with rfl | ⟨l₁, e', l₂, u, rfl, rfl, hu⟩
      · exact .inl List.flatMap_cons.symm
      · exact .inr ⟨e :: l₁, e', l₂, u, rfl, by rw [List.flatMap_cons, List.append_assoc], hu⟩

/-! ### What is read -/

/-- What is read of a line that was cut: nothing, or a part of the checksum. -/
theorem readDepLine_cut {e : Text × Text} (hname : IsWord e.1) (hsum : IsWord e.2) {u : Text}
    (hu : u <+: e.1 ++ ' ' :: e.2) (d : Dict Text Text) :
    readDepLine d u = d ∨ ∃ x, x <+: e.2 ∧ x ≠ [] ∧ u = e.1 ++ ' ' :: x ∧
      readDepLine d u = d.set e.1 x := by
  have hword : ∀ {v : Text}, Unspaced v → readDepLine d v = d := by
    intro v hv
    have hstrip : rstrip v = v := by
      by_cases hne : v = []
      · rw [hne]
        rfl
      · exact IsWord.rstrip_eq ⟨hne, hv⟩
    rw [readDepLine, hstrip, splitOnce_unspaced hv]
    by_cases hne : v = []
    · rw [if_pos hne]
    · rw [if_neg hne]
  rcases cut_append hu with ⟨hpre, -⟩ | ⟨q, rfl, hq⟩
  · exact .inl (hword fun c hc => hname.2 c (hpre.subset hc))
  · cases q with
    | nil => exact .inl (hword (by simpa using hname.2))
    | cons c x =>
      obtain ⟨rfl, hx⟩ := List.cons_prefix_cons.1 hq
      by_cases hne : x = []
      · -- the blank after the name is stripped
        have hblank : rstrip (e.1 ++ [' ']) = e.1 := by
          rw [rstrip, List.rdropWhile_concat_pos _ _ _ (by decide)]
          exact hname.rstrip_eq
        refine .inl ?_
        rw [hne, readDepLine, hblank, splitOnce_unspaced hname.2, if_neg hname.1]
      · have hxw : IsWord x := ⟨hne, fun c hc => hsum.2 c (hx.subset hc)⟩
        have hstrip : rstrip (e.1 ++ ' ' :: x) = e.1 ++ ' ' :: x := by
          simpa using rstrip_append_word (t := e.1 ++ [' ']) hxw
        refine .inr ⟨x, hx, hne, rfl, ?_⟩
        simp only [readDepLine, hstrip, splitOnce_field hname hxw.isField]

theorem lines_cut {u t : Text} (hu : u <+: t) (ht : '\n' ∉ t ∧ '\r' ∉ t) :
    lines u = if u = [] then [] else [u] := by
  by_cases hne : u = []
  · rw [hne]
    rfl
  · rw [if_neg hne]
    exact lines_incomplete (fun hc => ht.1 (hu.subset hc)) (fun hc => ht.2 (hu.subset hc)) hne

/-- The entries that are read when the line of `e` is cut. -/
theorem entries_cut {l₁ l₂ : List (Text × Text)} {e : Text × Text}
    (h : ∀ e' ∈ l₁ ++ e :: l₂, IsWord e'.1 ∧ IsWord e'.2)
    (hd : ((l₁ ++ e :: l₂).map Prod.fst).Nodup) {u : Text} (hu : u <+: e.1 ++ ' ' :: e.2) :
    (lines (l₁.flatMap stampLine ++ u)).foldl readDepLine [] = l₁ ∨
      ∃ x, x <+: e.2 ∧ u = e.1 ++ ' ' :: x ∧
        (lines (l₁.flatMap stampLine ++ u)).foldl readDepLine [] = l₁ ++ [(e.1, x)] := by
  have hfield : ∀ e' ∈ l₁, IsWord e'.1 ∧ IsField e'.2 := fun e' he' =>
    ⟨(h e' (List.mem_append_left _ he')).1, (h e' (List.mem_append_left _ he')).2.isField⟩
  obtain ⟨hname, hsum⟩ := h e (by simp)
  rw [List.map_append, List.map_cons, List.nodup_append] at hd
  have hnew : e.1 ∉ l₁.map Prod.fst := fun hmem => hd.2.2 _ hmem _ List.mem_cons_self rfl
  have hread : (lines (l₁.flatMap stampLine ++ u)).foldl readDepLine [] =
      (lines u).foldl readDepLine l₁ := by
    rw [lines_flatMap_stampLine hfield, List.foldl_append,
      foldl_readDepLine hfield (by simpa using hd.1), List.nil_append]
  rw [hread, lines_cut hu (no_newline_entry hname hsum.isField)]
  by_cases hnil : u = []
  · rw [if_pos hnil]
    exact .inl rfl
  · rw [if_neg hnil, List.foldl_cons, List.foldl_nil]
    refine (readDepLine_cut hname hsum hu l₁).imp_right ?_
    rintro ⟨x, hx, -, hux, hset⟩
    exact ⟨x, hx, hux, hset.trans (Dict.set_of_notMem hnew x)⟩

/-- **What is read of a torn stamp.**  If the text is cut, other than before the last newline, one
of the dependencies has no entry, or one with a strict part of the checksum. -/
theorem depChecksums_torn {c : Text} (hc : IsWord c) {deps : List (Text × Text)} (hne : deps ≠ [])
    (h : ∀ e ∈ deps, IsWord e.1 ∧ IsWord e.2) (hd : (deps.map Prod.fst).Nodup) {p : Text}
    (hp : p <+: stampText c deps) (hwhole : p ≠ stampText c deps)
    (hlast : p ++ ['\n'] ≠ stampText c deps) (t : Time) :
    ∃ e ∈ deps, ∀ x, (Stamp.depChecksums ⟨p, t⟩).get? e.1 = some x → x <+: e.2 ∧ x ≠ e.2 := by
  have hline : stampText c deps = (c ++ ['\n']) ++ deps.flatMap stampLine := by simp [stampText]
  rw [hline] at hp
  rcases cut_append hp with ⟨hpre, hneq⟩ | ⟨q, rfl, hq⟩
  · -- within the first line, so that there are no entries
    have hpc : p <+: c := (List.prefix_concat_iff.1 hpre).resolve_left hneq
    obtain ⟨e, he⟩ := List.exists_mem_of_ne_nil deps hne
    refine ⟨e, he, fun x hx => ?_⟩
    have hnone : Stamp.depChecksums ⟨p, t⟩ = [] := by
      rw [Stamp.depChecksums, lines_cut hpc hc.2.no_newline]
      by_cases hp' : p = []
      · rw [if_pos hp']
        rfl
      · rw [if_neg hp']
        rfl
    rw [hnone] at hx
    cases hx
  · have hread : Stamp.depChecksums ⟨c ++ ['\n'] ++ q, t⟩ = (lines q).foldl readDepLine [] := by
      have htext : c ++ ['\n'] ++ q = c ++ '\n' :: q := by simp
      rw [Stamp.depChecksums, htext, lines_cons hc.2.no_newline.1 hc.2.no_newline.2, List.tail_cons]
    rcases cut_stampLines hq with rfl | ⟨l₁, e, l₂, u, rfl, rfl, hu⟩
    · exact absurd hline.symm hwhole
    · rw [hread]
      rcases entries_cut h hd hu with hentries | ⟨x, hx, hux, hentries⟩
      · refine ⟨e, by simp, fun x hx => ?_⟩
        rw [hentries, Dict.get?_of_notMem] at hx
        · cases hx
        · rw [List.map_append, List.map_cons, List.nodup_append] at hd
          exact fun hmem => hd.2.2 _ hmem _ List.mem_cons_self rfl
      · rw [hentries]
        by_cases hcomplete : x = e.2
        · -- the line is complete, so there is another one
          cases l₂ with
          | nil =>
            refine absurd ?_ hlast
            rw [hline, hux, hcomplete]
            simp [stampLine]
          | cons e' l₂ =>
            refine ⟨e', by simp, fun y hy => ?_⟩
            rw [Dict.get?_of_notMem] at hy
            · cases hy
            · simp only [List.map_append, List.map_cons, List.map_nil] at hd ⊢
              grind [List.nodup_append, List.nodup_cons]
        · refine ⟨e, by simp, fun y hy => ?_⟩
          have hnodup : ((l₁ ++ [(e.1, x)]).map Prod.fst).Nodup := by
            refine List.Nodup.sublist ?_ hd
            simp
          rw [Dict.get?_of_mem hnodup (List.mem_append_right _ (List.mem_singleton.2 rfl))] at hy
          cases hy
          exact ⟨hx, hcomplete⟩

/-! ### The verdict -/

/-- **Torn stamps are detected.**  If the stamp of a build with dependencies is the beginning of
what was to be written, other than the text without its last newline, the build is done again:
whatever the times and whatever has become of the dependencies, as long as their checksums, where
they have one, are digests. -/
theorem torn_stamp_needs_build (inv : Invocation) (bs : Builds) (written mem : BuildStates)
    (b : BuildKey) (hskip : inv.args.skipDeps = false) (hne : (bs.build b).keys ≠ [])
    (hname : ∀ d ∈ (bs.build b).keys, Unspaced (buildName d))
    (hb : IsDigest (written b).checksum)
    (hwritten : ∀ d ∈ (bs.build b).keys, IsDigest (written d).checksum)
    (hsums : ∀ d ∈ (bs.build b).keys, (mem d).checksum ≠ [] → IsDigest (mem d).checksum)
    (p : Text) (hp : p <+: writtenText bs written b) (hwhole : p ≠ writtenText bs written b)
    (hlast : p ++ ['\n'] ≠ writtenText bs written b) (t : Time) (s : BuildState)
    (hread : (mem b).depChecksums = (readBuildStamp s (some ⟨p, t⟩)).depChecksums)
    (eager : Bool) (n : ℕ) :
    (∀ v r, checkNeedsBuild inv bs mem n b eager = some (v, r) → v = true) ∧
      ((∀ u, ¬ Relation.TransGen bs.Dep u u) → bs.processed.length < n →
        ∃ r, checkNeedsBuild inv bs mem n b eager = some (true, r)) := by
  have hverdict : ∀ v r, checkNeedsBuild inv bs mem n b eager = some (v, r) → v = true := by
    intro v r hv
    by_contra hfalse
    rw [Bool.not_eq_true] at hfalse
    subst hfalse
    obtain ⟨-, hedges⟩ := not_outdated_of_checkNeedsBuild (by simp [hskip]) hv
    obtain ⟨d₀, hd₀⟩ := List.exists_mem_of_ne_nil _ hne
    have hentries : ∀ e ∈ (bs.build b).sortedDeps.map
        (fun d => (buildName d, (written d).checksumOrZero)), IsWord e.1 ∧ IsWord e.2 := by
      intro e he
      obtain ⟨d, hd, rfl⟩ := List.mem_map.1 he
      have hdk := mem_sortedDeps.1 hd
      have hword := (hwritten d hdk).isWord
      exact ⟨⟨by simp [buildName], hname d hdk⟩, by rwa [checksumOrZero_of_ne_nil hword.1]⟩
    have hsorted : (bs.build b).sortedDeps ≠ [] := List.ne_nil_of_mem (mem_sortedDeps.2 hd₀)
    obtain ⟨e, he, htorn⟩ := depChecksums_torn hb.isWord (by simpa using hsorted) hentries
      (nodup_sortedDeps_names _ _) hp hwhole hlast t
    obtain ⟨d, hd, rfl⟩ := List.mem_map.1 he
    have hdk := mem_sortedDeps.1 hd
    -- what the check wants to see is a whole digest
    obtain ⟨-, -, -, hsome, hget⟩ := checkDepChanged_eq_false_iff.1
      (hedges b d (DepthFirst.Examined.edge (mem_orderedDeps.2 hdk)))
    rw [hread] at hget
    obtain ⟨hpre, hneq⟩ := htorn _ hget
    rw [checksumOrZero_of_ne_nil (hwritten d hdk).isWord.1] at hpre hneq
    exact hneq (hpre.eq_of_length (by rw [(hsums d hdk hsome).1, (hwritten d hdk).1]))
  refine ⟨hverdict, fun hacyc hn => ?_⟩
  obtain ⟨⟨v, r⟩, hv⟩ :=
    exists_checkNeedsBuild_of_acyclic inv mem b hacyc hn eager
  have htrue := hverdict v r hv
  subst htrue
  exact ⟨r, hv⟩

/-- Checksums as they are computed. -/
def digestStates : BuildStates := fun k =>
  { buildMtime := 5, srcMtime := 1
    checksum := List.replicate 64 (if k.1 = "lib" then 'a' else 'b') }

/-- The stamp of the application, cut within the checksum of the last dependency. -/
def tornText : Text :=
  (writtenText toolBuilds digestStates ("app", .x86_64)).take 200

/-- The state after the torn stamp has been read. -/
def tornStates : BuildStates :=
  Function.update digestStates ("app", .x86_64)
    (readBuildStamp (digestStates ("app", .x86_64)) (some ⟨tornText, 9⟩))

theorem toolBuilds_torn :
    (∃ r, checkNeedsBuild { native := .x86_64, target := .x86_64, tops := ["app"] } toolBuilds
      tornStates 4 ("app", .x86_64) false = some (true, r)) ∧
    ∃ r, checkNeedsBuild { native := .x86_64, target := .x86_64, tops := ["app"] } toolBuilds
      tornStates 4 ("app", .x86_64) true = some (true, r) := by
  have hrank := not_transGen_dep_of_rank toolBuilds
    (fun k => toolBuilds.buildlist.idxOf k) (by decide)
  have h := torn_stamp_needs_build { native := .x86_64, target := .x86_64, tops := ["app"] }
    toolBuilds digestStates tornStates ("app", .x86_64) rfl (by decide) (by decide) (by decide)
    (by decide) (by decide) tornText (List.take_prefix _ _) (by decide +kernel)
    (by decide +kernel) 9 (digestStates ("app", .x86_64)) rfl
  exact ⟨(h false 4).2 hrank (by decide), (h true 4).2 hrank (by decide)⟩

end Pbuild
