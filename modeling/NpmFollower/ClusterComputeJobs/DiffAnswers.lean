import NpmFollower.ClusterComputeJobs.DiffAnalysis
import NpmFollower.Library.Folds

/-! # Answers and their pairs

The keys of a pair go through two texts to a node and come back in the name of its
output. Where no key has a separator in it and a key stands for one version, each
output is stored for the pair whose tarballs it is about.
-/

namespace NpmFollower.ClusterComputeJobs

open Std BlobIdxClient PostgresDb WorkerPipeline

/-- No key has a separator in it, and a key has one id. -/
structure WellKeyed (rows : List QRes) : Prop where
  plain : ∀ q ∈ rows, ∀ key ∈ q.keys, ' ' ∉ key.toList ∧ '&' ∉ key.toList
  single : ∀ q ∈ rows, ∀ q' ∈ rows, ∀ e ∈ q.ids, ∀ e' ∈ q'.ids, e.1 = e'.1 → e.2 = e'.2

theorem WellKeyed.subset {rows rows' : List QRes} (h : WellKeyed rows) (hsub : rows' ⊆ rows) :
    WellKeyed rows' :=
  ⟨fun q hq => h.plain q (hsub hq), fun q hq q' hq' => h.single q (hsub hq) q' (hsub hq')⟩

/-! ## The way to a node and back -/

section Names

variable {chunk : List QRes} {q : QRes}

theorem splitOnce_append {sep : Char} {a b : List Char} (ha : sep ∉ a) :
    splitOnce sep (a ++ sep :: b) = some (a, b) := by
  induction a with
  | nil => simp [splitOnce]
  | cons c a ih =>
    have hc : c ≠ sep := fun heq => ha (heq ▸ List.mem_cons_self)
    rw [List.cons_append, splitOnce, if_neg hc, ih fun hmem => ha (List.mem_cons_of_mem c hmem)]
    rfl

theorem splitOnce_keys (hq : '&' ∉ q.fromKey.toList) :
    splitOnce '&' ("&".intercalate q.keys).toList = some (q.fromKey.toList, q.toKey.toList) := by
  have htext : ("&".intercalate q.keys).toList = q.fromKey.toList ++ '&' :: q.toKey.toList := by
    rw [String.toList_intercalate, QRes.keys]
    simp
  rw [htext]
  exact splitOnce_append hq

theorem idLookup_eq (h : WellKeyed chunk) (hq : q ∈ chunk) {e : String × ℤ} (he : e ∈ q.ids) :
    idLookup chunk e.1 = some e.2 := by
  have hmem : (e.1, e.2) ∈ (chunk.flatMap QRes.ids).reverse :=
    List.mem_reverse.mpr (List.mem_flatMap.mpr ⟨q, hq, he⟩)
  have hsome : (idLookup chunk e.1).isSome := by
    rw [idLookup, List.lookup_isSome_iff]
    exact ⟨e, hmem, by simp⟩
  obtain ⟨id, hid⟩ := Option.isSome_iff_exists.mp hsome
  obtain ⟨l₁, l₂, heq, -⟩ := List.lookup_eq_some_iff.mp hid
  have hfound : (e.1, id) ∈ (chunk.flatMap QRes.ids).reverse := by
    rw [heq]
    exact List.mem_append_right _ List.mem_cons_self
  obtain ⟨q', hq', he'⟩ := List.mem_flatMap.mp (List.mem_reverse.mp hfound)
  exact hid.trans (congrArg some (h.single q' hq' q hq _ he' e he rfl))

theorem computeRunBinMulti_submit {group : List QRes} (h : WellKeyed group) (hne : group ≠ []) :
    computeRunBinMulti (submitComputeMulti (group.map QRes.keys)) = group.map QRes.keys := by
  refine (List.map_injective_iff.mpr map_toList_injective) ?_
  rw [toList_computeRunBinMulti]
  refine (Separators.splitOn_splitOn_intercalate_iff (by decide)).mpr ⟨by simpa using hne, ?_⟩
  intro texts htexts
  obtain ⟨keys, hkeys, rfl⟩ := List.mem_map.mp htexts
  obtain ⟨q, hq, rfl⟩ := List.mem_map.mp hkeys
  refine ⟨by simp [QRes.keys], fun text htext => ?_⟩
  obtain ⟨key, hkey, rfl⟩ := List.mem_map.mp htext
  exact h.plain q hq key hkey

end Names

/-! ## The outputs of a request -/

section Outputs

variable {E : Codecs} {cluster : Cluster} {chunk : List QRes}

/-- The output has the name of the pair, and a node has given it for the keys of the pair. -/
def Names (cluster : Cluster) (q : QRes) (output : String × TarballResult) : Prop :=
  output.1 = "&".intercalate q.keys ∧
    ∃ i binary, cluster.node i = some binary ∧ binary q.keys = .ok output.2

theorem mem_chunks {sub : List QRes} (h : sub ∈ chunks (chunkSize / numWorkers) chunk) :
    sub ≠ [] ∧ sub ⊆ chunk := by
  have hpos : 0 < chunkSize / numWorkers := by decide
  refine ⟨ne_nil_of_mem_chunksUpTo hpos h, fun q hq => ?_⟩
  rw [← flatten_chunks hpos chunk]
  exact List.mem_flatten.mpr ⟨sub, h, hq⟩

theorem names_of_runBinMulti {sub : List QRes} (h : WellKeyed sub) (hne : sub ≠ [])
    {binary : Binary} {m : List (String × TarballResult)}
    (hrun : runBinMulti binary (submitComputeMulti (sub.map QRes.keys)) = .message m) :
    (∀ output ∈ m, ∃ q ∈ sub, output.1 = "&".intercalate q.keys ∧ binary q.keys = .ok output.2) ∧
      ∀ q ∈ sub, ∃ output ∈ m, output.1 = "&".intercalate q.keys := by
  rw [runBinMulti, computeRunBinMulti_submit h hne] at hrun
  cases hall : (sub.map QRes.keys).dedup.mapM fun urls =>
      (binary urls).map fun res => ("&".intercalate urls, res) with
  | error e =>
    rw [hall] at hrun
    cases hrun
  | ok outs =>
    rw [hall] at hrun
    cases hrun
    have hforall := Folds.mapM_eq_ok_iff.mp hall
    have hmem : ∀ urls, urls ∈ (sub.map QRes.keys).dedup ↔ ∃ q ∈ sub, q.keys = urls := by
      intro urls
      rw [List.mem_dedup, List.mem_map]
    have hout : ∀ urls output, (binary urls).map (fun res => ("&".intercalate urls, res)) =
        .ok output → output.1 = "&".intercalate urls ∧ binary urls = .ok output.2 := by
      intro urls output hok
      cases hres : binary urls with
      | error e =>
        rw [hres] at hok
        cases hok
      | ok res =>
        rw [hres] at hok
        cases hok
        exact ⟨rfl, rfl⟩
    refine ⟨fun output houtput => ?_, fun q hq => ?_⟩
    · obtain ⟨urls, hurls, hok⟩ := Folds.exists_of_mem_right hforall houtput
      obtain ⟨q, hq, rfl⟩ := (hmem urls).mp hurls
      exact ⟨q, hq, hout _ _ hok⟩
    · obtain ⟨output, houtput, hok⟩ :=
        Folds.exists_of_mem_right hforall.flip ((hmem q.keys).mpr ⟨q, hq, rfl⟩)
      exact ⟨output, houtput, (hout _ _ hok).1⟩

theorem mem_outputs {resps : List ClientResponse} {output : String × TarballResult} :
    output ∈ outputs resps ↔ ∃ m, .message m ∈ resps ∧ output ∈ m := by
  rw [outputs, List.mem_flatMap]
  constructor
  · rintro ⟨resp, hresp, houtput⟩
    cases resp with
    | message m => exact ⟨m, hresp, houtput⟩
    | error e => cases houtput
  · rintro ⟨m, hm, houtput⟩
    exact ⟨.message m, hm, houtput⟩

/-- Each node gets the keys of some pairs of the chunk. -/
theorem mem_submitMulti {resps : List ClientResponse}
    (hsubmit : cluster.submitMulti (tarballChunks chunk) = some resps) {resp : ClientResponse} :
    resp ∈ resps ↔ ∃ i sub, (chunks (chunkSize / numWorkers) chunk)[i]? = some sub ∧
      cluster.computeMulti i (sub.map QRes.keys) = resp := by
  rw [Cluster.submitMulti, Option.ite_none_right_eq_some] at hsubmit
  obtain ⟨-, hsubmit⟩ := hsubmit
  obtain rfl := Option.some.inj hsubmit
  constructor
  · intro hresp
    obtain ⟨⟨keys, i⟩, hmem, rfl⟩ := List.mem_map.mp hresp
    rw [List.mem_zipIdx_iff_getElem?, tarballChunks, List.getElem?_map,
      Option.map_eq_some_iff] at hmem
    obtain ⟨sub, hsub, rfl⟩ := hmem
    exact ⟨i, sub, hsub, rfl⟩
  · rintro ⟨i, sub, hsub, rfl⟩
    refine List.mem_map.mpr ⟨(sub.map QRes.keys, i), ?_, rfl⟩
    rw [List.mem_zipIdx_iff_getElem?, tarballChunks, List.getElem?_map, hsub]
    rfl

theorem outputs_named (h : WellKeyed chunk) {resps : List ClientResponse}
    (hsubmit : cluster.submitMulti (tarballChunks chunk) = some resps) :
    ∀ output ∈ outputs resps, ∃ q ∈ chunk, Names cluster q output := by
  intro output houtput
  obtain ⟨m, hm, houtput⟩ := mem_outputs.mp houtput
  obtain ⟨i, sub, hsub, hrun⟩ := (mem_submitMulti hsubmit).mp hm
  obtain ⟨hne, hsubset⟩ := mem_chunks (List.mem_of_getElem? hsub)
  rw [Cluster.computeMulti] at hrun
  cases hnode : cluster.node i with
  | none =>
    rw [hnode] at hrun
    cases hrun
  | some binary =>
    rw [hnode] at hrun
    obtain ⟨q, hq, hname, hres⟩ :=
      (names_of_runBinMulti (h.subset hsubset) hne hrun).1 output houtput
    exact ⟨q, hsubset hq, hname, i, binary, hnode, hres⟩

end Outputs

/-! ## The answer to a chunk -/

section Answer

variable {E : Codecs} {cluster : Cluster} {chunk : List QRes} {q : QRes}
  {diffs rs : List PostgresDb.DiffAnalysis}

/-- The diff is what a node has given for the keys of the pair. -/
def ComputedFor (E : Codecs) (cluster : Cluster) (q : QRes) (d : PostgresDb.DiffAnalysis) : Prop :=
  d.pair = q.pair ∧ ∃ i binary res, cluster.node i = some binary ∧ binary q.keys = .ok res ∧
    jobResult E res = some d.jobResult

theorem addDiff_eq (h : WellKeyed chunk) (hq : q ∈ chunk) {output : String × TarballResult}
    (hname : output.1 = "&".intercalate q.keys) :
    addDiff E chunk diffs output = if diffs.any fun d => d.pair = q.pair then some diffs
      else (jobResult E output.2).map fun r => diffs ++ [⟨q.fromId, q.toId, r⟩] := by
  have hplain := h.plain q hq q.fromKey List.mem_cons_self
  have hfrom := idLookup_eq (e := (q.fromKey, q.fromId)) h hq List.mem_cons_self
  have hto := idLookup_eq (e := (q.toKey, q.toId)) h hq (List.mem_cons_of_mem _ List.mem_cons_self)
  rw [addDiff, hname, splitOnce_keys hplain.2]
  simp only [Option.bind_eq_bind, Option.bind_some, String.ofList_toList, hfrom, hto]
  rw [QRes.pair]
  split_ifs
  · rfl
  · cases jobResult E output.2 <;> rfl

/-- One diff for a pair, from an output about the pair. -/
structure Answered (E : Codecs) (cluster : Cluster) (chunk : List QRes)
    (diffs : List PostgresDb.DiffAnalysis) : Prop where
  nodup : (diffs.map (·.pair)).Nodup
  computed : ∀ d ∈ diffs, ∃ q ∈ chunk, ComputedFor E cluster q d

theorem Answered.addDiff (hdiffs : Answered E cluster chunk diffs) (h : WellKeyed chunk)
    (hq : q ∈ chunk) {output : String × TarballResult} (hnames : Names cluster q output)
    (hadd : addDiff E chunk diffs output = some rs) : Answered E cluster chunk rs := by
  obtain ⟨hname, i, binary, hnode, hres⟩ := hnames
  rw [addDiff_eq h hq hname] at hadd
  split_ifs at hadd with hany
  · cases hadd
    exact hdiffs
  · obtain ⟨r, hr, rfl⟩ := Option.map_eq_some_iff.mp hadd
    refine ⟨?_, fun d hd => ?_⟩
    · rw [List.map_append, List.map_singleton, List.nodup_append_comm]
      refine List.nodup_cons.mpr ⟨fun hmem => hany ?_, hdiffs.nodup⟩
      obtain ⟨d, hd, hpair⟩ := List.mem_map.mp hmem
      exact List.any_eq_true.mpr ⟨d, hd, decide_eq_true hpair⟩
    · rcases List.mem_append.mp hd with hd | hd
      · exact hdiffs.computed d hd
      · obtain rfl := List.mem_singleton.mp hd
        exact ⟨q, hq, rfl, i, binary, output.2, hnode, hres, hr⟩

theorem answered_foldlM (h : WellKeyed chunk) {l : List (String × TarballResult)}
    (hl : ∀ output ∈ l, ∃ q ∈ chunk, Names cluster q output)
    (hdiffs : Answered E cluster chunk diffs) (hfold : l.foldlM (addDiff E chunk) diffs = some rs) :
    Answered E cluster chunk rs := by
  induction l generalizing diffs with
  | nil =>
    cases hfold
    exact hdiffs
  | cons output l ih =>
    rw [List.foldlM_cons] at hfold
    obtain ⟨diffs', hadd, hfold⟩ := Option.bind_eq_some_iff.mp hfold
    obtain ⟨q, hq, hnames⟩ := hl output List.mem_cons_self
    exact ih (fun o ho => hl o (List.mem_cons_of_mem _ ho)) (hdiffs.addDiff h hq hnames hadd) hfold

/-- The answer to a chunk has one diff at most for a pair of it, from an output about the pair. -/
theorem answered_diffWorker (h : WellKeyed chunk) (hrs : diffWorker E chunk cluster = some rs) :
    Answered E cluster chunk rs := by
  obtain ⟨resps, hsubmit, hfold⟩ := Option.bind_eq_some_iff.mp hrs
  have hnone : Answered E cluster chunk [] :=
    ⟨List.nodup_nil, fun d hd => absurd hd List.not_mem_nil⟩
  exact answered_foldlM h (outputs_named h hsubmit) hnone hfold

/-- All nodes give a definitive output for each pair. -/
structure Answers (E : Codecs) (cluster : Cluster) (chunk : List QRes) : Prop where
  reached : cluster.reached = true
  node : ∀ i, ∃ binary, cluster.node i = some binary
  output : ∀ i binary, cluster.node i = some binary → ∀ q ∈ chunk, ∃ res r,
    binary q.keys = .ok res ∧ jobResult E res = some r ∧ definitive ⟨q.fromId, q.toId, r⟩

theorem pair_eq_of_name {q q' : QRes} (h : WellKeyed chunk) (hq : q ∈ chunk) (hq' : q' ∈ chunk)
    (hname : "&".intercalate q.keys = "&".intercalate q'.keys) : q.pair = q'.pair := by
  have hsplit := splitOnce_keys (h.plain q hq q.fromKey List.mem_cons_self).2
  rw [hname, splitOnce_keys (h.plain q' hq' q'.fromKey List.mem_cons_self).2] at hsplit
  obtain ⟨hfrom, hto⟩ := Prod.mk.inj (Option.some.inj hsplit)
  refine Prod.ext ?_ ?_
  · exact h.single q hq q' hq' (q.fromKey, q.fromId) List.mem_cons_self (q'.fromKey, q'.fromId)
      List.mem_cons_self (String.toList_injective hfrom.symm)
  · exact h.single q hq q' hq' (q.toKey, q.toId) (List.mem_cons_of_mem _ List.mem_cons_self)
      (q'.toKey, q'.toId) (List.mem_cons_of_mem _ List.mem_cons_self)
      (String.toList_injective hto.symm)

theorem Answers.addDiff (hanswers : Answers E cluster chunk) (h : WellKeyed chunk) (hq : q ∈ chunk)
    (diffs : List PostgresDb.DiffAnalysis) {output : String × TarballResult} (hnames : Names cluster q output) :
    ∃ rs, addDiff E chunk diffs output = some rs ∧ diffs ⊆ rs ∧ ∃ d ∈ rs, d.pair = q.pair := by
  obtain ⟨hname, i, binary, hnode, hres⟩ := hnames
  obtain ⟨res, r, hok, hr, -⟩ := hanswers.output i binary hnode q hq
  cases hres.symm.trans hok
  rw [addDiff_eq h hq hname, hr]
  split_ifs with hany
  · obtain ⟨d, hd, hpair⟩ := List.any_eq_true.mp hany
    exact ⟨diffs, rfl, List.Subset.refl _, d, hd, of_decide_eq_true hpair⟩
  · exact ⟨_, rfl, List.subset_append_left _ _, _,
      List.mem_append_right _ (List.mem_singleton_self _), rfl⟩

theorem Answers.foldlM (hanswers : Answers E cluster chunk) (h : WellKeyed chunk)
    (diffs : List PostgresDb.DiffAnalysis) {l : List (String × TarballResult)} (hl : ∀ output ∈ l, ∃ q ∈ chunk, Names cluster q output) :
    ∃ rs, l.foldlM (ClusterComputeJobs.addDiff E chunk) diffs = some rs ∧ diffs ⊆ rs ∧
      ∀ q ∈ chunk, (∃ output ∈ l, output.1 = "&".intercalate q.keys) →
        ∃ d ∈ rs, d.pair = q.pair := by
  induction l generalizing diffs with
  | nil => exact ⟨diffs, rfl, List.Subset.refl _, fun q _ ⟨o, ho, _⟩ => absurd ho List.not_mem_nil⟩
  | cons output l ih =>
    obtain ⟨q, hq, hnames⟩ := hl output List.mem_cons_self
    obtain ⟨diffs', hadd, hsub, d, hd, hpair⟩ := hanswers.addDiff h hq diffs hnames
    obtain ⟨rs, hfold, hsub', hall⟩ :=
      ih diffs' fun o ho => hl o (List.mem_cons_of_mem _ ho)
    refine ⟨rs, ?_, List.Subset.trans hsub hsub', fun q' hq' ⟨o, ho, hname⟩ => ?_⟩
    · rw [List.foldlM_cons, hadd]
      exact hfold
    · rcases List.mem_cons.mp ho with rfl | ho
      · refine ⟨d, hsub' hd, hpair.trans (pair_eq_of_name h hq hq' ?_)⟩
        rw [← hnames.1, hname]
      · exact hall q' hq' ⟨o, ho, hname⟩

/-- A pair is in the group of one node, and the message of the node has its output. -/
theorem Answers.exists_output (hanswers : Answers E cluster chunk) (h : WellKeyed chunk)
    {resps : List ClientResponse}
    (hsubmit : cluster.submitMulti (tarballChunks chunk) = some resps) (hq : q ∈ chunk) :
    ∃ output ∈ outputs resps, output.1 = "&".intercalate q.keys := by
  rw [← flatten_chunks (by decide : 0 < chunkSize / numWorkers) chunk] at hq
  obtain ⟨sub, hsub, hq⟩ := List.mem_flatten.mp hq
  obtain ⟨i, hi⟩ := List.getElem?_of_mem hsub
  obtain ⟨hne, hsubset⟩ := mem_chunks hsub
  obtain ⟨binary, hnode⟩ := hanswers.node i
  have hok : ∀ urls ∈ (sub.map QRes.keys).dedup, ∃ output,
      (binary urls).map (fun res => ("&".intercalate urls, res)) = .ok output := by
    intro urls hurls
    obtain ⟨q', hq', rfl⟩ := List.mem_map.mp (List.mem_dedup.mp hurls)
    obtain ⟨res, r, hres, -⟩ := hanswers.output i binary hnode q' (hsubset hq')
    exact ⟨_, congrArg (Except.map _) hres⟩
  obtain ⟨m, hm⟩ := Folds.exists_mapM_ok_of_forall hok
  have hrun : runBinMulti binary (submitComputeMulti (sub.map QRes.keys)) = .message m := by
    rw [runBinMulti, computeRunBinMulti_submit (h.subset hsubset) hne, hm]
  obtain ⟨output, houtput, hname⟩ := (names_of_runBinMulti (h.subset hsubset) hne hrun).2 q hq
  refine ⟨output, mem_outputs.mpr ⟨m, (mem_submitMulti hsubmit).mpr ⟨i, sub, hi, ?_⟩, houtput⟩, hname⟩
  rw [Cluster.computeMulti, hnode]
  exact hrun

/-- When all nodes give definitive outputs, the answer has a definitive diff for each pair. -/
theorem Answers.diffWorker (hanswers : Answers E cluster chunk) (h : WellKeyed chunk) :
    ∃ rs, ClusterComputeJobs.diffWorker E chunk cluster = some rs ∧
      (∀ q ∈ chunk, ∃ d ∈ rs, d.pair = q.pair) ∧ ∀ d ∈ rs, definitive d := by
  have hsubmit : ∃ resps, cluster.submitMulti (tarballChunks chunk) = some resps := by
    rw [Cluster.submitMulti, if_pos hanswers.reached]
    exact ⟨_, rfl⟩
  obtain ⟨resps, hresps⟩ := hsubmit
  obtain ⟨rs, hfold, -, hall⟩ := hanswers.foldlM h [] (outputs_named h hresps)
  have hrs : ClusterComputeJobs.diffWorker E chunk cluster = some rs := by
    rw [ClusterComputeJobs.diffWorker, hresps]
    exact hfold
  refine ⟨rs, hrs, fun q hq => hall q hq (hanswers.exists_output h hresps hq), fun d hd => ?_⟩
  · obtain ⟨q, hq, -, i, binary, res, hnode, hok, hr⟩ := (answered_diffWorker h hrs).computed d hd
    obtain ⟨res', r, hok', hr', hdef⟩ := hanswers.output i binary hnode q hq
    cases hok.symm.trans hok'
    cases hr.symm.trans hr'
    exact hdef

end Answer

end NpmFollower.ClusterComputeJobs
