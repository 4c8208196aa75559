import Ucore.Library.Run
import Ucore.Process.ProcTable
import Mathlib.Data.Finset.Card
import Mathlib.Data.Int.Interval

/-!
# Runs of the process table

`get_pid` walks over the list and moves `last_pid` past every pid it meets, and starts again when
it has to. It never moves past a free pid, so its distance to one bounds the number of restarts.
What it leaves between `last_pid` and `next_safe` is free, which saves the next call the walk.
-/

namespace Ucore.Process

open Library

variable {t next : ProcTable} {procs seen rest : List Proc} {proc : Proc} {lastPid nextSafe : ℤ}

theorem MAX_PID_eq : MAX_PID = 8192 := rfl

/-! ## The search -/

/-- What the walk knows when it has `seen` some of the processes. -/
structure Searched (pid : Proc → ℤ) (seen : List Proc) (lastPid nextSafe : ℤ) : Prop where
  one_le : 1 ≤ lastPid
  lt : lastPid < nextSafe
  le : nextSafe ≤ MAX_PID
  apart : ∀ proc ∈ seen, pid proc < lastPid ∨ nextSafe ≤ pid proc

/-- How far the search is from a free pid. -/
def distance (free lastPid : ℤ) : ℕ :=
  (if lastPid ≤ free then free - lastPid else MAX_PID - lastPid + free).toNat

/-- Fewer processes than pids. -/
theorem exists_free (pid : Proc → ℤ) (hroom : procs.length < MAX_PROCESS) :
    ∃ free, 1 ≤ free ∧ free < MAX_PID ∧ ∀ proc ∈ procs, pid proc ≠ free := by
  by_contra hnone
  push Not at hnone
  have hsub : Finset.Ico 1 MAX_PID ⊆ (procs.map pid).toFinset := fun free hfree ↦ by
    rw [Finset.mem_Ico] at hfree
    rcases hnone free hfree.1 hfree.2 with ⟨proc, hproc, rfl⟩
    exact List.mem_toFinset.mpr (List.mem_map_of_mem hproc)
  have hcard := (Finset.card_le_card hsub).trans (List.toFinset_card_le _)
  rw [Int.card_Ico, List.length_map, MAX_PID_eq] at hcard
  unfold MAX_PROCESS at hroom
  omega

/-- The walk ends, and then has seen all processes. -/
theorem returns_scan (hring : Ring t.listLinks .procList (procs.map .listLink)) {free : ℤ}
    (hone : 1 ≤ free) (hlt : free < MAX_PID) (hfree : ∀ proc ∈ procs, t.pid proc ≠ free)
    (hsplit : procs = seen ++ rest) (hseen : Searched t.pid seen lastPid nextSafe) :
    ∃ result, Returns (fun fuel ↦ loop (scanRound t) fuel
        ⟨(seen.map ListNode.listLink).getLastD .procList, lastPid, nextSafe⟩) result ∧
      Searched t.pid procs result.1 result.2 := by
  -- induction on the distance to the free pid, and within one distance on what is left to see
  induction hdistance : distance free lastPid using Nat.strongRecOn
    generalizing seen rest lastPid nextSafe with
  | _ measure ih =>
    induction rest generalizing seen nextSafe with
    | nil =>
      rw [List.append_nil] at hsplit
      subst hsplit
      refine ⟨(lastPid, nextSafe), Returns.loop_inr ?_, hseen⟩
      have hnext : listNext t.listLinks ((procs.map ListNode.listLink).getLastD .procList) =
          .procList := by
        rw [← List.append_nil (procs.map _)] at hring
        exact (Ring.split_iff.mp hring).2.2.2.1
      rw [scanRound, hnext]
    | cons proc rest ihrest =>
      have hnext : listNext t.listLinks ((seen.map ListNode.listLink).getLastD .procList) =
          .listLink proc := by
        rw [hsplit, List.map_append, List.map_cons] at hring
        exact (Ring.split_iff.mp hring).2.2.2.1
      have hproc : proc ∈ procs := by simp [hsplit]
      have hafter : procs = (seen ++ [proc]) ++ rest := by simp [hsplit]
      have hlast : ((seen ++ [proc]).map ListNode.listLink).getLastD .procList = .listLink proc := by
        simp
      have hpid := hfree proc hproc
      rcases hseen with ⟨hlow, hbelow, hhigh, hapart⟩
      have hmem : ∀ other ∈ seen ++ [proc], other ∈ seen ∨ other = proc := by simp
      have hmeasure := hdistance
      rw [MAX_PID_eq] at hhigh hlt
      unfold distance at hmeasure
      rw [MAX_PID_eq] at hmeasure
      by_cases htaken : t.pid proc = lastPid
      · by_cases hrestart : lastPid + 1 ≥ nextSafe
        · -- start again, one pid further on
          have hround : scanRound t ⟨(seen.map ListNode.listLink).getLastD .procList, lastPid,
              nextSafe⟩ = .ok (.inl ⟨.procList,
                if lastPid + 1 ≥ MAX_PID then 1 else lastPid + 1, MAX_PID⟩) := by
            rw [scanRound, hnext]
            simp only [htaken, hrestart, if_true]
          have hfirst : Searched t.pid [] (if lastPid + 1 ≥ MAX_PID then 1 else lastPid + 1)
              MAX_PID := by
            refine ⟨?_, ?_, le_rfl, by simp⟩ <;> rw [MAX_PID_eq] <;> split <;> omega
          have hcloser : distance free (if lastPid + 1 ≥ MAX_PID then 1 else lastPid + 1) <
              measure := by
            unfold distance
            rw [MAX_PID_eq]
            split <;> omega
          rcases ih _ hcloser (List.nil_append procs).symm hfirst rfl with ⟨result, hcall, hresult⟩
          exact ⟨result, hcall.loop_inl hround, hresult⟩
        · have hround : scanRound t ⟨(seen.map ListNode.listLink).getLastD .procList, lastPid,
              nextSafe⟩ = .ok (.inl ⟨((seen ++ [proc]).map ListNode.listLink).getLastD .procList,
                lastPid + 1, nextSafe⟩) := by
            rw [scanRound, hnext, hlast]
            simp only [htaken, hrestart, if_true, if_false]
          have hmore : Searched t.pid (seen ++ [proc]) (lastPid + 1) nextSafe := by
            refine ⟨by omega, by omega, by rw [MAX_PID_eq]; omega, fun other hother ↦ ?_⟩
            rcases hmem other hother with hother | rfl
            · have := hapart other hother
              omega
            · omega
          have hcloser : distance free (lastPid + 1) < measure := by
            unfold distance
            rw [MAX_PID_eq]
            split <;> omega
          rcases ih _ hcloser hafter hmore rfl with ⟨result, hcall, hresult⟩
          exact ⟨result, hcall.loop_inl hround, hresult⟩
      · -- the process only bounds what is known to be free
        have hround : ∃ bound, scanRound t ⟨(seen.map ListNode.listLink).getLastD .procList, lastPid,
            nextSafe⟩ = .ok (.inl ⟨((seen ++ [proc]).map ListNode.listLink).getLastD .procList,
              lastPid, bound⟩) ∧ Searched t.pid (seen ++ [proc]) lastPid bound := by
          rw [scanRound, hnext, hlast]
          simp only [htaken, if_false]
          by_cases hbetween : t.pid proc > lastPid ∧ nextSafe > t.pid proc
          · refine ⟨t.pid proc, by rw [if_pos hbetween], hlow, hbetween.1, by rw [MAX_PID_eq]; omega,
              fun other hother ↦ ?_⟩
            rcases hmem other hother with hother | rfl
            · have := hapart other hother
              omega
            · exact Or.inr le_rfl
          · refine ⟨nextSafe, by rw [if_neg hbetween], hlow, hbelow, hhigh, fun other hother ↦ ?_⟩
            rcases hmem other hother with hother | rfl
            · exact hapart other hother
            · omega
        rcases hround with ⟨bound, hround, hmore⟩
        rcases ihrest hafter hmore with ⟨result, hcall, hresult⟩
        exact ⟨result, hcall.loop_inl hround, hresult⟩

/-! ## The table -/

/-- The hash list at one index holds the processes with that hash. -/
def Bucket (t : ProcTable) (procs : List Proc) (index : ℕ) (bucket : List Proc) : Prop :=
  Ring t.hashLinks (.hashList index) (bucket.map .hashLink) ∧
    ∀ proc, proc ∈ bucket ↔ proc ∈ procs ∧ pidHashfn (t.pid proc) = index

/-- The table lists the processes, each under its own pid. -/
structure Listed (t : ProcTable) (procs : List Proc) : Prop where
  list : Ring t.listLinks .procList (procs.map .listLink)
  hash : ∀ index < HASH_LIST_SIZE, ∃ bucket, Bucket t procs index bucket
  range : ∀ proc ∈ procs, 1 ≤ t.pid proc ∧ t.pid proc < MAX_PID
  distinct : ∀ a ∈ procs, ∀ b ∈ procs, t.pid a = t.pid b → a = b
  gap : ∀ proc ∈ procs, ¬(t.lastPid < t.pid proc ∧ t.pid proc < t.nextSafe)
  one_le : 1 ≤ t.lastPid
  le : t.nextSafe ≤ MAX_PID
  room : procs.length < MAX_PROCESS
  num : t.nrProcess = procs.length + 1

theorem Listed.returns_getPidInside (h : Listed t procs) (hlow : 1 ≤ lastPid)
    (hhigh : lastPid < MAX_PID) :
    ∃ pid bound, Returns (fun fuel ↦ getPidInside fuel t lastPid)
        (pid, { t with lastPid := pid, nextSafe := bound }) ∧
      Searched t.pid procs pid bound := by
  rcases exists_free t.pid h.room with ⟨free, hone, hlt, hfree⟩
  rcases returns_scan h.list hone hlt hfree (List.nil_append procs).symm
    ⟨hlow, hhigh, le_rfl, by simp⟩ with ⟨⟨pid, bound⟩, hcall, hresult⟩
  exact ⟨pid, bound, Returns.bind hcall (Returns.of_eq fun _ ↦ rfl), hresult⟩

/-- A pid that no process has, with a gap of free pids above it. -/
structure Fresh (t : ProcTable) (procs : List Proc) (pid bound : ℤ) : Prop where
  one_le : 1 ≤ pid
  lt : pid < MAX_PID
  le : bound ≤ MAX_PID
  ne : ∀ proc ∈ procs, t.pid proc ≠ pid
  gap : ∀ proc ∈ procs, ¬(pid < t.pid proc ∧ t.pid proc < bound)

theorem Searched.fresh {bound pid : ℤ} (h : Searched t.pid procs pid bound) :
    Fresh t procs pid bound := by
  have hlt := h.lt
  refine ⟨h.one_le, h.lt.trans_le h.le, h.le, fun proc hproc heq ↦ ?_, fun proc hproc hbetween ↦ ?_⟩
  · have := h.apart proc hproc
    omega
  · have := h.apart proc hproc
    omega

theorem Listed.returns_getPid (h : Listed t procs) :
    ∃ pid bound, Returns (fun fuel ↦ getPid fuel t)
        (pid, { t with lastPid := pid, nextSafe := bound }) ∧ Fresh t procs pid bound := by
  have hone := h.one_le
  by_cases hwrap : t.lastPid + 1 ≥ MAX_PID
  · rcases h.returns_getPidInside le_rfl (by decide) with ⟨pid, bound, hcall, hsearched⟩
    refine ⟨pid, bound, hcall.congr fun fuel ↦ ?_, hsearched.fresh⟩
    simp only [getPid, hwrap, if_true]
  · by_cases hused : t.lastPid + 1 ≥ t.nextSafe
    · have hnext : 1 ≤ t.lastPid + 1 := by omega
      rcases h.returns_getPidInside hnext (by omega) with ⟨pid, bound, hcall, hsearched⟩
      refine ⟨pid, bound, hcall.congr fun fuel ↦ ?_, hsearched.fresh⟩
      simp only [getPid, hwrap, hused, if_true, if_false]
    · -- the gap that the last search left
      have hgap := h.gap
      refine ⟨t.lastPid + 1, t.nextSafe, Returns.of_eq fun fuel ↦ ?_, by omega, by omega, h.le,
        fun proc hproc heq ↦ ?_, fun proc hproc hbetween ↦ ?_⟩
      · simp only [getPid, hwrap, hused, if_false]
      · exact hgap proc hproc (by omega)
      · exact hgap proc hproc (by omega)

/-- A walk over a bucket finds the first process with the pid. -/
theorem scan_find (t : ProcTable) (pid : ℤ) (bucket : List Proc) :
    scan (findRound t pid) (fun _ ↦ .ok none) (bucket.map .hashLink) () =
      .ok (bucket.find? fun proc ↦ t.pid proc = pid) := by
  induction bucket with
  | nil => rfl
  | cons proc rest ih =>
    rw [List.map_cons, scan, findRound]
    by_cases h : t.pid proc = pid
    · simp [h]
    · simp [h, ih]

theorem pidHashfn_lt (pid : ℤ) : pidHashfn pid < HASH_LIST_SIZE := by
  have hlt := uint32_lt ((pid % 2 ^ 32).toNat * GOLDEN_RATIO_PRIME_32)
  rw [pidHashfn, hash32, HASH_LIST_SIZE, HASH_SHIFT, Nat.shiftRight_eq_div_pow]
  omega

/-- `find_proc` finds the process with the pid, if there is one. -/
theorem Listed.returns_findProc (h : Listed t procs) (pid : ℤ) :
    ∃ result, Returns (fun fuel ↦ findProc fuel t pid) result ∧
      ∀ proc, result = some proc ↔ proc ∈ procs ∧ t.pid proc = pid := by
  by_cases hrange : 0 < pid ∧ pid < MAX_PID
  · rcases h.hash (pidHashfn pid) (pidHashfn_lt pid) with ⟨bucket, hring, hmem⟩
    refine ⟨_, (returns_walk (fun _ ↦ True) (fun _ _ ↦ hring) (fun _ _ _ _ _ _ ↦ trivial) trivial
      (scan_find t pid bucket)).congr fun fuel ↦ ?_, fun proc ↦ ⟨fun hfind ↦ ?_, fun hproc ↦ ?_⟩⟩
    · rw [findProc, if_pos hrange]
    · have hpid : t.pid proc = pid := by simpa using List.find?_some hfind
      exact ⟨((hmem proc).mp (List.mem_of_find?_eq_some hfind)).1, hpid⟩
    · have hbucket : proc ∈ bucket := (hmem proc).mpr ⟨hproc.1, by rw [hproc.2]⟩
      cases hfind : bucket.find? fun proc ↦ t.pid proc = pid with
      | none =>
        rw [List.find?_eq_none] at hfind
        exact absurd hproc.2 (by simpa using hfind proc hbucket)
      | some found =>
        have hfound : t.pid found = pid := by simpa using List.find?_some hfind
        have hlisted := ((hmem found).mp (List.mem_of_find?_eq_some hfind)).1
        rw [h.distinct found hlisted proc hproc.1 (hfound.trans hproc.2.symm)]
  · refine ⟨none, Returns.of_eq fun fuel ↦ by rw [findProc, if_neg hrange], fun proc ↦ ?_⟩
    refine ⟨fun hnone ↦ (by cases hnone), fun ⟨hproc, hpid⟩ ↦ absurd ?_ hrange⟩
    have hpidRange := h.range proc hproc
    omega

/-! ## Creation and reaping -/

/-- Setting the links of a process changes the list of all processes, some relations and the
count. -/
theorem setLinks_eq (t : ProcTable) (proc : Proc) : ∃ relations,
    setLinks t proc = { t with
      relations := relations
      listLinks := listAdd t.listLinks .procList (.listLink proc)
      nrProcess := int32 (t.nrProcess + 1) } := by
  unfold setLinks
  dsimp only
  split <;> exact ⟨_, rfl⟩

theorem removeLinks_eq (t : ProcTable) (proc : Proc) : ∃ relations,
    removeLinks t proc = { t with
      relations := relations
      listLinks := listDel t.listLinks (.listLink proc)
      nrProcess := int32 (t.nrProcess - 1) } := by
  unfold removeLinks
  dsimp only
  split <;> split <;> exact ⟨_, rfl⟩

theorem Listed.hashLink_notMem {index : ℕ} {bucket : List Proc} (hbucket : Bucket t procs index bucket)
    (hfresh : proc ∉ procs) :
    HashNode.hashLink proc ∉ HashNode.hashList index :: bucket.map .hashLink := by
  simp only [List.mem_cons, List.mem_map, HashNode.hashLink.injEq, exists_eq_right, reduceCtorEq,
    false_or]
  exact fun hmem ↦ hfresh ((hbucket.2 proc).mp hmem).1

/-- Two buckets share no node. -/
theorem Bucket.disjoint {index other : ℕ} {bucket others : List Proc}
    (h : Bucket t procs index bucket) (hother : Bucket t procs other others) (hne : index ≠ other) :
    ∀ node ∈ HashNode.hashList index :: bucket.map .hashLink,
      node ∉ HashNode.hashList other :: others.map .hashLink := by
  intro node hnode hmem
  rcases List.mem_cons.mp hnode with rfl | hnode
  · rcases List.mem_cons.mp hmem with heq | hmem
    · exact hne (HashNode.hashList.inj heq)
    · simp at hmem
  · rcases List.mem_map.mp hnode with ⟨proc, hproc, rfl⟩
    have hprocOther : proc ∈ others := by simpa using hmem
    exact hne (((h.2 proc).mp hproc).2.symm.trans ((hother.2 proc).mp hprocOther).2)

/-- The new process goes to the front of the list and of its bucket. -/
theorem Listed.publish (h : Listed t procs) (hfresh : proc ∉ procs)
    (hroom : t.nrProcess < MAX_PROCESS) :
    ∃ next, Returns (fun fuel ↦ publish fuel t proc) next ∧ Listed next (proc :: procs) := by
  rcases h.returns_getPid with ⟨pid, bound, hcall, hpid⟩
  rcases setLinks_eq (hashProc { t with
    lastPid := pid, nextSafe := bound, pid := Function.update t.pid proc pid } proc) proc with
    ⟨relations, hlinks⟩
  refine ⟨_, Returns.bind hcall (Returns.of_eq fun _ ↦ congrArg Except.ok hlinks), ?_⟩
  have hother : ∀ other ∈ procs, Function.update t.pid proc pid other = t.pid other := by
    intro other hmem
    have hne : other ≠ proc := fun heq ↦ hfresh (heq ▸ hmem)
    exact Function.update_of_ne hne _ _
  have hself : Function.update t.pid proc pid proc = pid := Function.update_self ..
  have hnum := h.num
  refine ⟨?_, fun index hindex ↦ ?_, fun other hmem ↦ ?_, fun a ha b hb heq ↦ ?_,
    fun other hmem ↦ ?_, hpid.one_le, hpid.le, ?_, ?_⟩
  · exact ring_listAdd_head h.list (by simpa using hfresh)
  · rcases h.hash _ (pidHashfn_lt pid) with ⟨bucket, hbucket⟩
    by_cases heq : index = pidHashfn pid
    · subst heq
      refine ⟨proc :: bucket, ?_, fun other ↦ ?_⟩
      · change Ring (listAdd t.hashLinks (.hashList (pidHashfn (Function.update t.pid proc pid proc)))
          (.hashLink proc)) _ _
        rw [hself]
        exact ring_listAdd_head hbucket.1 (hashLink_notMem hbucket hfresh)
      · change other ∈ proc :: bucket ↔ other ∈ proc :: procs ∧
          pidHashfn (Function.update t.pid proc pid other) = pidHashfn pid
        rw [List.mem_cons, List.mem_cons, hbucket.2]
        by_cases heq : other = proc
        · simp [heq]
        · simp [heq]
    · rcases h.hash index hindex with ⟨others, hothers⟩
      refine ⟨others, ?_, fun other ↦ ?_⟩
      · change Ring (listAdd t.hashLinks (.hashList (pidHashfn (Function.update t.pid proc pid proc)))
          (.hashLink proc)) _ _
        rw [hself]
        exact ring_listAdd_other hbucket.1 hothers.1 (hashLink_notMem hothers hfresh)
          (hbucket.disjoint hothers (Ne.symm heq))
      · change other ∈ others ↔ other ∈ proc :: procs ∧
          pidHashfn (Function.update t.pid proc pid other) = index
        rw [List.mem_cons, hothers.2]
        by_cases hproc : other = proc
        · simp [hproc, hfresh, Ne.symm heq]
        · simp [hproc]
  · change 1 ≤ Function.update t.pid proc pid other ∧ Function.update t.pid proc pid other < MAX_PID
    rcases List.mem_cons.mp hmem with rfl | hmem
    · rw [hself]
      exact ⟨hpid.one_le, hpid.lt⟩
    · rw [hother other hmem]
      exact h.range other hmem
  · change Function.update t.pid proc pid a = Function.update t.pid proc pid b at heq
    rcases List.mem_cons.mp ha with rfl | haOld
    · rcases List.mem_cons.mp hb with rfl | hbOld
      · rfl
      · rw [hself, hother b hbOld] at heq
        exact absurd heq.symm (hpid.ne b hbOld)
    · rcases List.mem_cons.mp hb with rfl | hbOld
      · rw [hself, hother a haOld] at heq
        exact absurd heq (hpid.ne a haOld)
      · rw [hother a haOld, hother b hbOld] at heq
        exact h.distinct a haOld b hbOld heq
  · change ¬(pid < Function.update t.pid proc pid other ∧ Function.update t.pid proc pid other < bound)
    rcases List.mem_cons.mp hmem with rfl | hmem
    · rw [hself]
      exact fun hbetween ↦ lt_irrefl pid hbetween.1
    · rw [hother other hmem]
      exact hpid.gap other hmem
  · rw [List.length_cons]
    omega
  · change int32 (t.nrProcess + 1) = _
    unfold MAX_PROCESS at hroom
    rw [List.length_cons]
    unfold int32
    omega

/-- A reaped process is unlinked from the list and from its bucket. -/
theorem Listed.withdraw (h : Listed t procs) (hproc : proc ∈ procs) :
    ∃ left right, procs = left ++ proc :: right ∧ Listed (withdraw t proc) (left ++ right) := by
  rcases List.append_of_mem hproc with ⟨left, right, rfl⟩
  refine ⟨left, right, rfl, ?_⟩
  rcases removeLinks_eq (unhashProc t proc) proc with ⟨relations, hlinks⟩
  rw [Process.withdraw, hlinks]
  have hremoved : ∀ other, other ∈ left ++ right ↔ other ∈ left ++ proc :: right ∧ other ≠ proc :=
    fun other ↦ Ring.mem_remove_iff h.list.nodes_nodup.of_map
  have hroom := h.room
  have hnum := h.num
  rw [List.length_append, List.length_cons] at hroom hnum
  refine ⟨?_, fun index hindex ↦ ?_, fun other hmem ↦ ?_,
    fun a ha b hb ↦ h.distinct a ((hremoved a).mp ha).1 b ((hremoved b).mp hb).1,
    fun other hmem ↦ ?_, h.one_le, h.le, ?_, ?_⟩
  · have hlist := h.list
    rw [List.map_append, List.map_cons] at hlist
    rw [List.map_append]
    exact ring_listDel hlist
  · rcases h.hash _ (pidHashfn_lt (t.pid proc)) with ⟨bucket, hbucket⟩
    have hprocBucket : proc ∈ bucket := (hbucket.2 proc).mpr ⟨by simp, rfl⟩
    rcases List.append_of_mem hprocBucket with ⟨before, after, rfl⟩
    have hring := hbucket.1
    rw [List.map_append, List.map_cons] at hring
    by_cases heq : index = pidHashfn (t.pid proc)
    · subst heq
      refine ⟨before ++ after, ?_, fun other ↦ ?_⟩
      · rw [List.map_append]
        exact ring_listDel hring
      · rw [Ring.mem_remove_iff hbucket.1.nodes_nodup.of_map, hbucket.2, hremoved]
        exact and_right_comm
    · rcases h.hash index hindex with ⟨others, hothers⟩
      refine ⟨others, ?_, fun other ↦ ?_⟩
      · refine ring_listDel_other hring hothers.1 ?_
        have hdisjoint := hbucket.disjoint hothers (Ne.symm heq)
        rwa [List.map_append, List.map_cons] at hdisjoint
      · rw [hothers.2, hremoved]
        refine ⟨fun hother ↦ ⟨⟨hother.1, ?_⟩, hother.2⟩, fun hother ↦ ⟨hother.1.1, hother.2⟩⟩
        rintro rfl
        exact heq hother.2.symm
  · exact h.range other ((hremoved other).mp hmem).1
  · exact h.gap other ((hremoved other).mp hmem).1
  · rw [List.length_append]
    omega
  · change int32 (t.nrProcess - 1) = _
    unfold MAX_PROCESS at hroom
    rw [List.length_append]
    unfold int32
    omega

/-! ## Runs -/

/-- The process table, and the processes that have been created and not yet reaped. -/
structure World where
  table : ProcTable
  live : Finset Proc

/-- After `proc_init` has set up the lists and counted `idleproc`, which is not listed. -/
structure Booted (w : World) : Prop where
  table : ∃ t, w.table = { initLists t with nrProcess := 1, lastPid := MAX_PID, nextSafe := MAX_PID }
  live : w.live = ∅

/-- A process is created, which `do_fork` refuses with `MAX_PROCESS` of them, or reaped. -/
inductive Step (w : World) : World → Prop
  | create {proc : Proc} {next : ProcTable} (hfresh : proc ∉ w.live)
      (hroom : w.table.nrProcess < MAX_PROCESS)
      (hcall : Returns (fun fuel ↦ publish fuel w.table proc) next) :
      Step w ⟨next, insert proc w.live⟩
  | reap {proc : Proc} (hlive : proc ∈ w.live) :
      Step w ⟨withdraw w.table proc, w.live.erase proc⟩

variable {w : World}

theorem ring_initHashList (links : Links HashNode) (count : ℕ) :
    ∀ index < count, Ring (initHashList links count) (.hashList index) [] := by
  induction count with
  | zero => simp
  | succ count ih =>
    intro index hindex
    rw [initHashList]
    by_cases heq : index = count
    · rw [heq]
      exact ring_listInit _ _
    · refine (ih index (by omega)).congr fun value hvalue ↦ ?_
      have hvalueEq : value = .hashList index := by simpa using hvalue
      have hne : value ≠ .hashList count := by simpa [hvalueEq] using heq
      exact Links.selfLink_of_ne _ hne

theorem Listed.of_booted (h : Booted w) : Listed w.table [] := by
  rcases h.table with ⟨t, ht⟩
  rw [ht]
  have hbucket : ∀ index < HASH_LIST_SIZE, Bucket { initLists t with
      nrProcess := 1, lastPid := MAX_PID, nextSafe := MAX_PID } [] index [] := fun index hindex ↦
    ⟨ring_initHashList t.hashLinks HASH_LIST_SIZE index hindex, by simp⟩
  exact ⟨ring_listInit _ _, fun index hindex ↦ ⟨[], hbucket index hindex⟩,
    by simp, by simp, by simp, (by decide : (1 : ℤ) ≤ MAX_PID), le_rfl,
    (by decide : 0 < MAX_PROCESS), rfl⟩

theorem listed_of_reachable (h : Reachable Booted Step w) :
    ∃ procs, Listed w.table procs ∧ ∀ proc, proc ∈ procs ↔ proc ∈ w.live := by
  induction h with
  | first hbooted => exact ⟨[], Listed.of_booted hbooted, by simp [hbooted.live]⟩
  | step _ hstep ih =>
    rcases ih with ⟨procs, hlisted, hmem⟩
    cases hstep with
    | @create proc next hfresh hroom hcall =>
      rcases hlisted.publish (mt (hmem proc).mp hfresh) hroom with ⟨other, hother, hafter⟩
      rw [← hother.unique hcall]
      exact ⟨proc :: procs, hafter, by simp [hmem]⟩
    | @reap proc hlive =>
      rcases hlisted.withdraw ((hmem proc).mpr hlive) with ⟨left, right, rfl, hafter⟩
      refine ⟨left ++ right, hafter, fun other ↦ ?_⟩
      rw [Ring.mem_remove_iff hlisted.list.nodes_nodup.of_map, hmem, Finset.mem_erase, and_comm]

/-- What the search for pids guarantees. `get_pid` returns a pid that no process has, between calls
nothing has a pid in the gap, and a pid leads to the one process that has it. -/
structure Identified (w : World) : Prop where
  list : ∃ procs : List Proc, Ring w.table.listLinks .procList (procs.map .listLink) ∧
    ∀ proc, proc ∈ procs ↔ proc ∈ w.live
  getPid : ∃ pid next, Returns (fun fuel ↦ getPid fuel w.table) (pid, next) ∧
    1 ≤ pid ∧ pid < MAX_PID ∧ ∀ proc ∈ w.live, w.table.pid proc ≠ pid
  gap : ∀ proc ∈ w.live,
    ¬(w.table.lastPid < w.table.pid proc ∧ w.table.pid proc < w.table.nextSafe)
  distinct : ∀ a ∈ w.live, ∀ b ∈ w.live, w.table.pid a = w.table.pid b → a = b
  findProc : ∀ pid, ∃ result, Returns (fun fuel ↦ findProc fuel w.table pid) result ∧
    ∀ proc, result = some proc ↔ proc ∈ w.live ∧ w.table.pid proc = pid

theorem identified_of_reachable (h : Reachable Booted Step w) : Identified w := by
  rcases listed_of_reachable h with ⟨procs, hlisted, hmem⟩
  refine ⟨⟨procs, hlisted.list, hmem⟩, ?_, fun proc hlive ↦ hlisted.gap proc ((hmem proc).mpr hlive),
    fun a ha b hb ↦ hlisted.distinct a ((hmem a).mpr ha) b ((hmem b).mpr hb), fun pid ↦ ?_⟩
  · rcases hlisted.returns_getPid with ⟨pid, bound, hcall, hfresh⟩
    exact ⟨pid, _, hcall, hfresh.one_le, hfresh.lt,
      fun proc hlive ↦ hfresh.ne proc ((hmem proc).mpr hlive)⟩
  · rcases hlisted.returns_findProc pid with ⟨result, hcall, hresult⟩
    exact ⟨result, hcall, fun proc ↦ by rw [hresult, hmem]⟩

/-! ## The first process -/

theorem settles_getPid (t : ProcTable) : Settles fun fuel ↦ getPid fuel t := by
  have hinside : ∀ lastPid, Settles fun fuel ↦ getPidInside fuel t lastPid := fun _ ↦
    (settles_loop _ _).bind fun _ ↦ Settles.of_constant _
  unfold getPid
  dsimp only
  split
  · exact hinside 1
  · split
    · exact hinside _
    · exact Settles.of_constant _

theorem settles_publish (t : ProcTable) (proc : Proc) : Settles fun fuel ↦ publish fuel t proc :=
  (settles_getPid t).bind fun _ ↦ Settles.of_constant _

/-- The table at boot, in a memory of zeros. -/
def bootTable : ProcTable :=
  { initLists ⟨fun _ ↦ 0, fun _ ↦ ⟨0, none, none, none⟩, fun node ↦ ⟨node, node⟩,
      fun node ↦ ⟨node, node⟩, 0, 0, 0⟩ with
    nrProcess := 1, lastPid := MAX_PID, nextSafe := MAX_PID }

/-- A process is created at address 1. -/
def firstTable : ProcTable := (publish 1 bootTable 1).toOption.getD bootTable

theorem identified_first : firstTable.pid 1 = 1 ∧ Identified ⟨firstTable, insert 1 ∅⟩ := by
  have hboot : Booted ⟨bootTable, ∅⟩ := ⟨⟨_, rfl⟩, rfl⟩
  have hcreate : Step ⟨bootTable, ∅⟩ ⟨firstTable, insert 1 ∅⟩ :=
    .create (by simp) (by decide)
      ((settles_publish bootTable 1).returns_getD bootTable (by decide +kernel))
  exact ⟨by decide +kernel, identified_of_reachable (.step (.first hboot) hcreate)⟩

end Ucore.Process
