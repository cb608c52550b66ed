import CfKernel.Fat.Chain

/-!
# What allocation, release and extension do to a volume
-/

namespace CfKernel.Fat

open Lib Lib.Eff

namespace FatSuper

variable {sb : FatSuper} {c x n i index : Nat} {d d' d'' : Disk} {l l' l'' m p q : List Nat}
variable {s : FatState} {f : Nat}

theorem fatAllocFrom_free (hfree : sb.Free s.disk c) :
    ∃ d', fatAllocFrom sb (n + 1) c s = (.ok c, { s with disk := d' }) ∧
      sb.Allocated s.disk d' c := by
  obtain ⟨hc, hget⟩ := hfree
  have hw := hc.writeCluster (d := s.disk) fun _ => 0
  set d₁ := splice s.disk (sb.clusterAddr c) sb.clusterSize fun _ => 0
  -- zeroing a data cluster leaves the table alone
  have hfar : ∀ a < sb.rootDirStart * 512, d₁ a = s.disk a := fun a ha => by
    have hge := (Nat.mul_le_mul_right 512 sb.rootDirStart_le).trans (sb.clusterAddr_ge c)
    exact splice_outside (.inl (ha.trans_le hge))
  obtain ⟨d₂, hset, hent⟩ := setFatEntry_of_get hc
    ((getFatEntry_congr hfar c).trans hget) sb.eocMarker_lt
  refine ⟨d₂, ?_, ⟨hc, hget⟩, fun x hx => ?_, fun a ha hna => ?_, fun a ha => ?_,
    fun hcop => hent.copies (hcop.congr hfar)⟩
  · rw [fatAllocFrom, bind_ok (onDisk_run hget), if_neg (by simp), bind_ok (toDisk_run hw),
      bind_ok (toDisk_run hset)]
    rfl
  · rw [hent.fat x hx, getFatEntry_congr hfar x]
  · rw [hent.data a ha]
    exact splice_outside (by unfold InCluster at hna; omega)
  · rw [hent.data a ha.ge]
    exact splice_inside ha.1 ha.2

def Full (sb : FatSuper) (d : Disk) : Prop := ∀ x, ¬ sb.Free d x

theorem fatAllocFrom_spec (sb : FatSuper) (n c : Nat) (s : FatState) (hc : 2 ≤ c)
    (hn : c + n = sb.clusterCount + 2) :
    (∃ x d', fatAllocFrom sb n c s = (.ok x, { s with disk := d' }) ∧
        sb.Allocated s.disk d' x) ∨
      ∃ e, fatAllocFrom sb n c s = (.error e, s) ∧
        (e = .noSpaceLeft → ∀ x, c ≤ x → ¬ sb.Free s.disk x) := by
  induction n generalizing c with
  | zero =>
    refine .inr ⟨.noSpaceLeft, rfl, fun _ x hx hf => ?_⟩
    have := hf.1.2
    omega
  | succ n ih =>
    have hcl : sb.IsCluster c := ⟨hc, by omega⟩
    cases hv : sb.getFatEntry s.disk c with
    | error e =>
      refine .inr ⟨e, ?_, ?_⟩
      · rw [fatAllocFrom, bind_error (onDisk_fail hv)]
      · -- the entry functions report other errors only
        rintro rfl
        by_cases hin : sb.InTable c
        · rw [getFatEntry_ok hcl.2 hin] at hv
          cases hv
        · rw [getFatEntry_of_tests hcl.2 hin] at hv
          cases hv
    | ok v =>
      by_cases hv0 : v = 0
      · subst hv0
        obtain ⟨d', hrun, hall⟩ := fatAllocFrom_free (n := n) ⟨hcl, hv⟩
        exact .inl ⟨c, d', hrun, hall⟩
      · rw [fatAllocFrom, bind_ok (onDisk_run hv), if_pos hv0]
        rcases ih (c + 1) (by omega) (by omega) with h | ⟨e, he, hfull⟩
        · exact .inl h
        · refine .inr ⟨e, he, fun hns x hx hf => ?_⟩
          rcases Nat.eq_or_lt_of_le hx with rfl | hlt
          · rw [hf.2] at hv
            cases hv
            exact hv0 rfl
          · exact hfull hns x hlt hf

/-- `fat_alloc_cluster` takes a free cluster or leaves the disk alone; it reports a full volume
only when no cluster is free. -/
theorem fatAllocCluster_spec (sb : FatSuper) (s : FatState) :
    ∃ mem, (∃ x d', fatAllocCluster sb s = (.ok x, { s with disk := d', mem := mem }) ∧
        sb.Allocated s.disk d' x) ∨
      ∃ e, fatAllocCluster sb s = (.error e, { s with mem := mem }) ∧
        (e = .noSpaceLeft → sb.Full s.disk) := by
  obtain ⟨mem, hrun | hrun⟩ := malloc_cases s
  · refine ⟨mem, ?_⟩
    rw [fatAllocCluster, bind_ok hrun]
    rcases fatAllocFrom_spec sb sb.clusterCount 2 { s with mem := mem } le_rfl (Nat.add_comm _ _)
      with ⟨x, d', hx, hall⟩ | ⟨e, he, hfull⟩
    · exact .inl ⟨x, d', hx, hall⟩
    · exact .inr ⟨e, he, fun hns x hf => hfull hns x hf.1.1 hf⟩
  · exact ⟨mem, .inr ⟨.outOfMemory, by rw [fatAllocCluster, bind_error hrun], by intro h; cases h⟩⟩

theorem fatFreeFrom_run (h : sb.Chain s.disk c l) (hn : l.length ≤ n) :
    ∃ d', fatFreeFrom sb n c s = (.ok (), { s with disk := d' }) ∧ sb.Freed s.disk d' l := by
  induction l generalizing s c n with
  | nil =>
    obtain rfl : c = 0 := h
    refine ⟨s.disk, ?_, fun x _ => by simp, fun _ _ => rfl, id⟩
    cases n <;> rfl
  | cons y l ih =>
    have hnd := List.nodup_cons.mp h.nodup
    obtain ⟨rfl, next, hlink, hl⟩ := h
    obtain ⟨w, hw, -⟩ := hlink.entry
    obtain ⟨d₁, hset, hent⟩ := setFatEntry_of_get hlink.1 hw (Nat.two_pow_pos sb.type.width)
    cases n with
    | zero => simp at hn
    | succ n =>
      have hc0 : c ≠ 0 := by have := hlink.1.1; omega
      have hl₁ : sb.Chain d₁ next l := Chain.congr hl fun x hx => by
        rw [hent.fat x (Chain.isCluster hl hx).2, if_neg (by rintro rfl; exact hnd.1 hx)]
      obtain ⟨d', hrun, hfr⟩ := ih (s := { s with disk := d₁ }) (n := n) hl₁
        (by simpa using hn)
      refine ⟨d', ?_, fun x hx => ?_, fun a ha => ?_, fun hcop => hfr.copies (hent.copies hcop)⟩
      · rw [fatFreeFrom, if_neg hc0, bind_ok (onDisk_run hlink.2), bind_ok (toDisk_run hset), hrun]
      · rw [hfr.fat x hx, hent.fat x hx]
        by_cases hxl : x ∈ l
        · rw [if_pos hxl, if_pos (by simp [hxl])]
        · by_cases hxc : x = c
          · rw [if_neg hxl, if_pos hxc, if_pos (by simp [hxc])]
          · rw [if_neg hxl, if_neg hxc, if_neg (by simp [hxl, hxc])]
      · exact (hfr.data a ha).trans (hent.data a ha)

theorem fatFreeChain_run (h : sb.Chain s.disk c l) :
    ∃ d', fatFreeChain sb c s = (.ok (), { s with disk := d' }) ∧ sb.Freed s.disk d' l :=
  fatFreeFrom_run h h.length_le

theorem fatFreeChain_zero (sb : FatSuper) (s : FatState) : fatFreeChain sb 0 s = (.ok (), s) := by
  unfold fatFreeChain
  cases sb.clusterCount <;> rfl

theorem Grown.refl (sb : FatSuper) (d : Disk) (l : List Nat) : sb.Grown d d l l :=
  ⟨List.prefix_refl l, fun _ hx hn => absurd hx hn, fun _ _ _ => rfl, fun _ _ _ => rfl,
    fun _ hx hn => absurd hx hn, id, fun _ => rfl⟩

theorem Grown.trans (h : sb.Grown d d' l l') (h' : sb.Grown d' d'' l' l'') :
    sb.Grown d d'' l l'' where
  pre := h.pre.trans h'.pre
  fresh x hx hnl := by
    by_cases hxl : x ∈ l'
    · exact h.fresh x hxl hnl
    · have hf := h'.fresh x hx hxl
      exact ⟨hf.1, by rw [← h.fat x hf.1.2 hxl, hf.2]⟩
  fat x hx hnl := by
    rw [h'.fat x hx hnl, h.fat x hx fun hxl => hnl (h'.pre.subset hxl)]
  data a ha hna := by
    rw [h'.data a ha fun x hx hxl => hna x hx fun hc => hxl (h.pre.subset hc),
      h.data a ha fun x hx hxl => hna x (h'.pre.subset hx) hxl]
  zero x hx hnl a ha := by
    by_cases hxl : x ∈ l'
    · have hcl := (h.fresh x hxl hnl).1
      rw [h'.data a ha.ge fun y hy hyl hya => ?_, h.zero x hxl hnl a ha]
      exact hyl (inCluster_unique hcl (h'.fresh y hy hyl).1 ha hya ▸ hxl)
    · exact h'.zero x hx hxl a ha
  copies hc := h'.copies (h.copies hc)
  same heq := by
    have hle := h.pre.length_le
    have hle' := h'.pre.length_le
    have hl' : l' = l := by
      refine (h.pre.eq_of_length ?_).symm
      rw [heq] at hle'
      omega
    rw [h'.same (heq.trans hl'.symm), h.same hl']

theorem Allocated.append (ha : sb.Allocated d d' x) (hl : sb.Chain d f (p ++ [c]))
    (he : sb.EntrySet d' d'' c x) :
    sb.Grown d d'' (p ++ [c]) (p ++ [c] ++ [x]) ∧ sb.Chain d'' f (p ++ [c] ++ [x]) := by
  have hx := ha.free.not_mem hl
  have hxc : x ≠ c := by
    rintro rfl
    exact hx (by simp)
  have hcl : sb.IsCluster c := hl.isCluster (by simp)
  have hfresh : ∀ y ∈ p ++ [c] ++ [x], y ∉ p ++ [c] → y = x := by
    intro y hy hn
    rcases List.mem_append.mp hy with h | h
    · exact absurd h hn
    · exact List.mem_singleton.mp h
  constructor
  · refine ⟨List.prefix_append _ _, fun y hy hn => hfresh y hy hn ▸ ha.free, fun y hy hn => ?_,
      fun a hge hna => ?_, fun y hy hn a hya => ?_, fun hcop => he.copies (ha.copies hcop),
      fun heq => ?_⟩
    · have hyc : y ≠ c := by
        rintro rfl
        exact hn (by simp)
      have hyx : y ≠ x := by
        rintro rfl
        exact hn (by simp)
      rw [he.fat y hy, if_neg hyc, ha.fat y hy, if_neg hyx]
    · rw [he.data a hge, ha.data a hge (hna x (by simp) hx)]
    · cases hfresh y hy hn
      rw [he.data a hya.ge, ha.zero a hya]
    · have := congrArg List.length heq
      simp at this
  · -- the old links before `c`, then `c` to the new cluster, then the end mark
    obtain ⟨y, hp, hy⟩ := path_append.mp hl
    obtain ⟨rfl, -⟩ := path_cons.mp hy
    have hnd := hl.nodup
    rw [List.append_assoc]
    refine path_append.mpr ⟨y, Path.congr hp fun z hz n hn => ⟨hn.1, ?_⟩, rfl, x, ?_, rfl, 0, ?_, rfl⟩
    · have hzy : z ≠ y := by
        rintro rfl
        exact (List.nodup_append.mp hnd).2.2 z hz z (by simp) rfl
      have hzx : z ≠ x := by
        rintro rfl
        exact hx (by simp [hz])
      rw [fatNextCluster_congr (d := d), hn.2]
      rw [he.fat z hn.1.2, if_neg hzy, ha.fat z hn.1.2, if_neg hzx]
    · exact link_of_cluster hcl ha.free.1 (by rw [he.fat y hcl.2, if_pos rfl])
    · refine link_of_eoc ha.free.1 ?_
      rw [he.fat x ha.free.1.2, if_neg hxc, ha.fat x ha.free.1.2, if_pos rfl]

theorem fatAppendCluster_spec (hl : sb.Chain s.disk f (p ++ [c])) :
    ∃ mem, (∃ x d', fatAppendCluster sb c s = (.ok x, { s with disk := d', mem := mem }) ∧
        sb.Grown s.disk d' (p ++ [c]) (p ++ [c] ++ [x]) ∧ sb.Chain d' f (p ++ [c] ++ [x])) ∨
      ∃ e, fatAppendCluster sb c s = (.error e, { s with mem := mem }) ∧
        (e = .noSpaceLeft → sb.Full s.disk) := by
  obtain ⟨mem, ⟨x, d₁, hrun, hall⟩ | ⟨e, hrun, hfull⟩⟩ := fatAllocCluster_spec sb s
  · refine ⟨mem, .inl ?_⟩
    have hc : sb.IsCluster c := hl.isCluster (by simp)
    have hxc : c ≠ x := by
      rintro rfl
      exact hall.free.not_mem hl (by simp)
    obtain ⟨n, hlink⟩ := Path.exists_next hl (x := c) (by simp)
    obtain ⟨w, hw, -⟩ := hlink.entry
    obtain ⟨d₂, hset, hent⟩ := setFatEntry_of_get hc
      (by rw [hall.fat c hc.2, if_neg hxc, hw]) hall.free.1.entry.1
    refine ⟨x, d₂, ?_, hall.append hl hent⟩
    rw [fatAppendCluster, bind_ok hrun, bind_ok (attempt_run (toDisk_run hset))]
    rfl
  · exact ⟨mem, .inr ⟨e, by rw [fatAppendCluster, bind_error hrun], hfull⟩⟩

theorem fatEnsureFrom_existing (hl : sb.Chain s.disk c (c :: q)) (hx : (c :: q)[n]? = some x) :
    fatEnsureFrom sb n c s = (.ok x, s) := by
  induction n generalizing c q with
  | zero =>
    cases hx
    rfl
  | succ n ih =>
    cases q with
    | nil => simp at hx
    | cons y q =>
      obtain ⟨-, z, hlink, hz⟩ := path_cons.mp hl
      cases hz.head_eq
      rw [fatEnsureFrom, bind_ok (onDisk_run hlink.2), if_pos (Chain.head_ne_zero hz)]
      exact ih hz (by simpa using hx)

theorem fatEnsureFrom_spec (hl : sb.Chain s.disk f (p ++ c :: q)) :
    ∃ mem d' l', sb.Grown s.disk d' (p ++ c :: q) l' ∧ sb.Chain d' f l' ∧
      ((∃ x, fatEnsureFrom sb n c s = (.ok x, { s with disk := d', mem := mem }) ∧
          l'[p.length + n]? = some x ∧
          l'.length = max (p ++ c :: q).length (p.length + n + 1)) ∨
        ∃ e, fatEnsureFrom sb n c s = (.error e, { s with disk := d', mem := mem }) ∧
          (p ++ c :: q).length ≤ p.length + n ∧ (e = .noSpaceLeft → sb.Full d')) := by
  induction n generalizing s p c q with
  | zero =>
    refine ⟨s.mem, s.disk, _, Grown.refl sb s.disk _, hl, .inl ⟨c, rfl, by simp, ?_⟩⟩
    simp only [List.length_append, List.length_cons]
    omega
  | succ n ih =>
    obtain ⟨c', -, hcq⟩ := path_append.mp hl
    obtain ⟨-, y, hlink, hy⟩ := path_cons.mp hcq
    have happ : ∀ r, p ++ c :: r = (p ++ [c]) ++ r := fun r => by simp
    cases q with
    | cons z q =>
      have hy0 := Chain.head_ne_zero hy
      cases hy.head_eq
      rw [happ] at hl ⊢
      obtain ⟨mem, d', l', hg, hch, hres⟩ := ih hl
      refine ⟨mem, d', l', hg, hch, ?_⟩
      rw [fatEnsureFrom, bind_ok (onDisk_run hlink.2), if_pos hy0]
      rw [List.length_append, List.length_singleton, Nat.add_right_comm, Nat.add_assoc] at hres
      exact hres
    | nil =>
      obtain rfl : y = 0 := hy
      rw [fatEnsureFrom, bind_ok (onDisk_run hlink.2), if_neg (by simp)]
      obtain ⟨mem, ⟨x, d₁, hrun, hg, hch⟩ | ⟨e, hrun, hfull⟩⟩ := fatAppendCluster_spec hl
      · obtain ⟨mem', d', l', hg', hch', hres⟩ :=
          ih (s := { s with disk := d₁, mem := mem }) (p := p ++ [c]) (c := x) (q := []) hch
        refine ⟨mem', d', l', hg.trans hg', hch', ?_⟩
        rw [bind_ok hrun]
        simp only [List.length_append, List.length_singleton] at hres ⊢
        rcases hres with ⟨z, hz, hidx, hlen⟩ | ⟨e, he, hlen, hfull⟩
        · exact .inl ⟨z, hz, by rwa [Nat.add_right_comm, Nat.add_assoc] at hidx, by omega⟩
        · exact .inr ⟨e, he, by omega, hfull⟩
      · refine ⟨mem, s.disk, _, Grown.refl sb s.disk _, hl, .inr ⟨e, ?_, by simp, hfull⟩⟩
        rw [bind_error hrun]

/-- `t` is `s` after the node's chain was extended from `l` to `l'`. -/
structure Ensured (sb : FatSuper) (s t : FatState) (l l' : List Nat) : Prop where
  grown : sb.Grown s.disk t.disk l l'
  chain : sb.Chain t.disk t.node.firstCluster l'
  rest : t = { s with disk := t.disk, mem := t.mem,
                      node := { s.node with firstCluster := t.node.firstCluster } }

theorem fatEnsureCluster_existing (hl : sb.Chain s.disk s.node.firstCluster l)
    (hx : l[index]? = some x) : fatEnsureCluster sb index s = (.ok x, s) := by
  cases l with
  | nil => cases hx
  | cons y q =>
    have hy := hl.head_eq
    rw [fatEnsureCluster, bind_ok (getNode_run s), if_pos hl.head_ne_zero]
    rw [← hy] at hl hx
    exact fatEnsureFrom_existing hl hx

/-- `fat_ensure_cluster` returns the cluster with the given number of the extended chain, or stops
on the way; a full volume is reported only when no cluster is left. -/
theorem fatEnsureCluster_spec (index : Nat) (hl : sb.Chain s.disk s.node.firstCluster l) :
    ∃ t l', sb.Ensured s t l l' ∧
      ((∃ x, fatEnsureCluster sb index s = (.ok x, t) ∧ l'[index]? = some x ∧
          l'.length = max l.length (index + 1)) ∨
        ∃ e, fatEnsureCluster sb index s = (.error e, t) ∧ l.length ≤ index ∧
          (e = .noSpaceLeft → sb.Full t.disk)) := by
  by_cases h0 : s.node.firstCluster = 0
  · rw [h0] at hl
    obtain rfl := chain_zero.mp hl
    rw [fatEnsureCluster, bind_ok (getNode_run s), if_neg (by simp [h0])]
    obtain ⟨mem, ⟨x, d₁, hrun, hall⟩ | ⟨e, hrun, hfull⟩⟩ := fatAllocCluster_spec sb s
    · have hlink : sb.Link d₁ x 0 := link_of_eoc hall.free.1
        (by rw [hall.fat x hall.free.1.2, if_pos rfl])
      have hg : sb.Grown s.disk d₁ [] [x] := by
        refine ⟨List.nil_prefix, fun y hy _ => ?_, fun y hy hn => ?_, fun a ha hna => ?_,
          fun y hy _ a ha => ?_, hall.copies, fun h => by cases h⟩
        · cases List.mem_singleton.mp hy
          exact hall.free
        · rw [hall.fat y hy, if_neg (by simpa using hn)]
        · exact hall.data a ha (hna x (by simp) (by simp))
        · cases List.mem_singleton.mp hy
          exact hall.zero a ha
      obtain ⟨mem', d', l', hg', hch', hres⟩ := fatEnsureFrom_spec (n := index) (p := []) (q := [])
        (s := { s with disk := d₁, mem := mem, node := { s.node with firstCluster := x } })
        (c := x) (f := x) ⟨rfl, 0, hlink, rfl⟩
      refine ⟨{ s with disk := d', mem := mem', node := { s.node with firstCluster := x } }, l',
        ⟨hg.trans hg', hch', rfl⟩, ?_⟩
      rw [bind_ok hrun, bind_ok (modifyNode_run _ _)]
      simp only [List.length_nil, List.nil_append, List.length_cons, Nat.zero_add] at hres ⊢
      rcases hres with ⟨y, hy, hidx, hlen⟩ | ⟨e, he, hlen, hfull⟩
      · exact .inl ⟨y, hy, hidx, by omega⟩
      · exact .inr ⟨e, he, by omega, hfull⟩
    · refine ⟨{ s with mem := mem }, [], ⟨Grown.refl sb _ _, ?_, rfl⟩, .inr ⟨e, ?_, by simp, hfull⟩⟩
      · exact h0
      · rw [bind_error hrun]
  · cases l with
    | nil => exact absurd hl h0
    | cons y q =>
      have hy := hl.head_eq
      rw [← hy] at hl ⊢
      obtain ⟨mem, d', l', hg, hch, hres⟩ := fatEnsureFrom_spec (n := index) (p := []) hl
      refine ⟨{ s with disk := d', mem := mem }, l', ⟨hg, hch, rfl⟩, ?_⟩
      rw [fatEnsureCluster, bind_ok (getNode_run s), if_pos h0]
      simpa only [List.length_nil, List.nil_append, Nat.zero_add] using hres

end FatSuper

end CfKernel.Fat
