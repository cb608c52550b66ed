import CfKernel.Fd.Run

/-!
# Lexical and physical resolution

The kernel edits a path as text before it walks it: `..` takes a component away. A walk of the text
as it is given takes the parent pointer instead. On a ramfs, when the physical walk succeeds, the
text that was edited leads to the same vnode.
-/

namespace CfKernel.Syscall

open Lib Lib.Eff Fat Ramfs Fd

def physicalPath (cwd path : List UInt8) : List UInt8 :=
  if path.head? = some 0x2F then path else cwd ++ 0x2F :: path

section Pieces

variable {stack : List (List UInt8)}

section

variable (hplain : ∀ c ∈ stack, PlainName c)
include hplain

theorem pieces_flatMap_append {tail : List UInt8} (htail : ∀ x, tail.head? = some x → x = 0x2F) :
    pieces 0x2F ((stack.flatMap fun c => 0x2F :: c) ++ tail) = stack ++ pieces 0x2F tail := by
  induction stack with
  | nil => rfl
  | cons c stack ih =>
    obtain ⟨hne, -, -, hslash, -⟩ := hplain c List.mem_cons_self
    have ih := ih fun d hd => hplain d (List.mem_cons_of_mem c hd)
    have hhead : ∀ x, ((stack.flatMap fun c => 0x2F :: c) ++ tail).head? = some x → x = 0x2F := by
      cases stack with
      | nil => exact htail
      | cons d stack =>
        intro x hx
        exact (Option.some.inj hx).symm
    rw [List.flatMap_cons, List.append_assoc, List.cons_append, pieces_sep_cons, List.cons_append,
      ← ih]
    cases hrest : (stack.flatMap fun c => 0x2F :: c) ++ tail with
    | nil => rw [List.append_nil, pieces_single hslash hne, pieces_nil]
    | cons x rest =>
      obtain rfl := hhead x (by rw [hrest, List.head?_cons])
      rw [pieces_append_sep hslash hne, pieces_sep_cons]

theorem pieces_canonicalText : pieces 0x2F (canonicalText stack) = stack := by
  by_cases hnil : stack = []
  · subst hnil
    exact (pieces_sep_cons 0x2F []).trans (pieces_nil 0x2F)
  · have htext := pieces_flatMap_append hplain (fun x (hx : ([] : List UInt8).head? = some x) =>
      by cases hx)
    rw [List.append_nil, pieces_nil, List.append_nil] at htext
    rw [canonicalText, if_neg hnil, htext]

theorem pieces_physicalPath (path : List UInt8) :
    pieces 0x2F (physicalPath (canonicalText stack) path) =
      (if path.head? = some 0x2F then [] else stack) ++ pieces 0x2F path := by
  by_cases habs : path.head? = some 0x2F
  · rw [physicalPath, if_pos habs, if_pos habs, List.nil_append]
  rw [physicalPath, if_neg habs, if_neg habs]
  by_cases hnil : stack = []
  · subst hnil
    rw [canonicalText, if_pos rfl, List.cons_append, List.nil_append, pieces_sep_cons,
      pieces_sep_cons, List.nil_append]
  · have hslash : ∀ x, (0x2F :: path).head? = some x → x = 0x2F :=
      fun x hx => (Option.some.inj hx).symm
    rw [canonicalText, if_neg hnil, pieces_flatMap_append hplain hslash, pieces_sep_cons]

theorem normalForm_physicalPath (path : List UInt8) :
    normalForm (resolveComponents stack path) =
      normalForm (pieces 0x2F (physicalPath (canonicalText stack) path)) := by
  rw [pieces_physicalPath hplain, resolveComponents, normalForm, normalForm, List.foldl_append,
    List.foldl_append]
  exact (foldl_normalStep_filter _).symm

end

end Pieces

section Walk

variable {s : Ramfs.Tree} {kids : Nat → List Nat} {held : Nat → Nat} {u v w r : Nat}
variable {c cursor : List UInt8} {names l : List (List UInt8)}

def WalkStep (s : Ramfs.Tree) (v : Nat) (c : List UInt8) (w : Nat) : Prop :=
  ¬ 255 < c.length ∧ Ramfs.vfsLookupComponent v c s = (.ok w, s)

def Walks (s : Ramfs.Tree) : Nat → List (List UInt8) → Nat → Prop
  | v, [], w => v = w
  | v, c :: names, w => ∃ u, WalkStep s v c u ∧ Walks s u names w

theorem walks_append {m : List (List UInt8)} :
    Walks s v (l ++ m) w ↔ ∃ u, Walks s v l u ∧ Walks s u m w := by
  induction l generalizing v with
  | nil => exact ⟨fun h => ⟨v, rfl, h⟩, fun ⟨u, hu, h⟩ => hu ▸ h⟩
  | cons c l ih =>
    constructor
    · rintro ⟨a, ha, h⟩
      obtain ⟨u, hu, hm⟩ := ih.mp h
      exact ⟨u, ⟨a, ha, hu⟩, hm⟩
    · rintro ⟨u, ⟨a, ha, hu⟩, hm⟩
      exact ⟨a, ha, ih.mpr ⟨u, hu, hm⟩⟩

theorem walks_snoc : Walks s v (l ++ [c]) w ↔ ∃ u, Walks s v l u ∧ WalkStep s u c w := by
  rw [walks_append]
  apply exists_congr
  intro u
  apply and_congr_right'
  exact ⟨fun ⟨a, ha, heq⟩ => heq ▸ ha, fun h => ⟨w, h, rfl⟩⟩

variable (h : WellFormed s kids held)
include h

theorem WalkStep.attached (hv : Attached s v) (hstep : WalkStep s v c w) : Attached s w := by
  exact ((h.vfsLookupComponent_ends hv c).ok hstep.2).2

theorem Walks.attached (hv : Attached s v) (hw : Walks s v names w) : Attached s w := by
  induction names generalizing v with
  | nil => exact hw ▸ hv
  | cons c names ih =>
    obtain ⟨u, hu, hrest⟩ := hw
    exact ih (WalkStep.attached h hv hu) hrest

theorem vfsLookupLoop_iff {k : Nat} (hk : cursor.length < k) (hv : Attached s v) :
    Ramfs.vfsLookupLoop k cursor v s = (.ok w, s) ↔ Walks s v (pieces 0x2F cursor) w := by
  induction k generalizing cursor v with
  | zero => omega
  | succ k ih =>
    by_cases hnil : cursor.dropWhile (· = 0x2F) = []
    · rw [vfsLookupLoop_end k hnil, pieces_eq_nil hnil]
      exact ⟨fun heq => Except.ok.inj (Prod.mk.inj heq).1, fun heq => by rw [show v = w from heq]⟩
    rw [pieces_step hnil]
    by_cases hlong : 255 < (nextPiece 0x2F cursor).length
    · rw [vfsLookupLoop_long k hnil hlong]
      exact iff_of_false (fun heq => by cases heq) fun ⟨u, hu, _⟩ => hu.1 hlong
    rw [vfsLookupLoop_turn k hnil hlong, bind_run]
    have hlen : ((afterPiece 0x2F cursor).dropWhile (· = 0x2F)).length < k :=
      (length_rest_lt hnil).trans_le (Nat.le_of_lt_succ hk)
    rcases h.vfsLookupComponent_ends hv (nextPiece 0x2F cursor) with
      ⟨u, _, hrun, rfl, hu⟩ | ⟨_, _, hrun, ⟨e, rfl⟩, rfl⟩
    · rw [hrun, andThen_ok, ih hlen hu, pieces_dropWhile]
      constructor
      · exact fun hw => ⟨u, ⟨hlong, hrun⟩, hw⟩
      · rintro ⟨u', hu', hw⟩
        cases hrun.symm.trans hu'.2
        exact hw
    · rw [hrun, andThen_error]
      apply iff_of_false (fun heq => by cases heq)
      rintro ⟨u, hu, -⟩
      cases hrun.symm.trans hu.2

theorem WalkStep.isDir (hv : Attached s v) (hstep : WalkStep s v c w) :
    ∃ p n, IsDir s v p n ∧ n.vnodeCache = v ∧ ramfsLookupVn v c s = (.ok w, s) := by
  obtain ⟨p, n, hn, hl, rfl⟩ := hv
  have hx := h.cached hn hl
  have hrun := hstep.2
  rw [Ramfs.vfsLookupComponent, bind_ok (loadVnode hx)] at hrun
  by_cases htype : n.type = .dir
  · rw [if_neg (not_not.mpr htype)] at hrun
    exact ⟨p, n, ⟨⟨_, hx, htype, rfl⟩, hn, hl⟩, rfl, hrun⟩
  · rw [if_pos htype] at hrun
    cases hrun

theorem WalkStep.eq_of_dot (hv : Attached s v) (hstep : WalkStep s v dot w) : w = v := by
  obtain ⟨p, n, hd, -, hrun⟩ := WalkStep.isDir h hv hstep
  cases hd.lookup_dot.symm.trans hrun
  rfl

theorem WalkStep.eq_of_dotdot (hv : Attached s v) (hc : PlainName c) (hdown : WalkStep s v c u)
    (hup : WalkStep s u dotdot w) : w = v := by
  obtain ⟨p, n, hd, hcache, hrun⟩ := WalkStep.isDir h hv hdown
  obtain ⟨p', n', hd', hcache', hrun'⟩ := WalkStep.isDir h (WalkStep.attached h hv hdown) hup
  obtain ⟨hne, hdot, hdotdot, -⟩ := hc
  by_cases hfound : ∃ a, Finds s.nodes.cell kids p c a
  · obtain ⟨a, ha⟩ := hfound
    obtain ⟨m, hm, hpar, -⟩ := h.shape.child p a ha.1
    -- the vnode of the child belongs to the node where `..` is looked up
    cases (hd.lookup_found h ha hm).symm.trans hrun
    have hvn := h.cached hm (h.linked_of_finds ha hm)
    obtain ⟨x, hx, -, rfl⟩ := hd'.vnode
    obtain rfl := Option.some.inj (hx.symm.trans hvn)
    obtain rfl := Option.some.inj (hd'.node.symm.trans hm)
    obtain ⟨pn, hpn, -, hlook⟩ := hd'.lookup_dotdot h
    rw [parentOrSelf, if_neg (h.shape.linked_of_mem ha.1 hm), hpar, hd.node] at hpn
    obtain rfl := Option.some.inj hpn
    cases hlook.symm.trans hrun'
    exact hcache
  · cases (hd.lookup_missing h hdot hdotdot fun a ha => hfound ⟨a, ha⟩).symm.trans hrun

theorem WalkStep.eq_of_dotdot_root (hr : ∃ n, s.nodes.cell s.root = some n ∧ n.vnodeCache = r)
    (hup : WalkStep s r dotdot w) : w = r := by
  obtain ⟨n, hn, rfl⟩ := hr
  have hx := h.cached hn (.inl rfl)
  obtain ⟨p', n', hd', hcache', hrun'⟩ := WalkStep.isDir h ⟨s.root, n, hn, .inl rfl, rfl⟩ hup
  obtain ⟨x, hx', -, rfl⟩ := hd'.vnode
  obtain rfl := Option.some.inj (hx'.symm.trans hx)
  obtain rfl := Option.some.inj (hd'.node.symm.trans hn)
  obtain ⟨m, hm, -, hpar⟩ := h.shape.rootNode
  obtain rfl := Option.some.inj (hm.symm.trans hn)
  obtain ⟨pn, hpn, -, hlook⟩ := hd'.lookup_dotdot h
  rw [parentOrSelf, if_pos hpar, hn] at hpn
  obtain rfl := Option.some.inj hpn
  cases hlook.symm.trans hrun'
  rfl

theorem walks_normalForm (hr : ∃ n, s.nodes.cell s.root = some n ∧ n.vnodeCache = r)
    (hnames : ∀ c ∈ names, c ≠ [] ∧ 0x2F ∉ c ∧ 0 ∉ c) (hw : Walks s r names w) :
    Walks s r (normalForm names) w ∧ ∀ c ∈ normalForm names, PlainName c := by
  have hroot : Attached s r := by
    obtain ⟨n, hn, hcache⟩ := hr
    exact ⟨s.root, n, hn, .inl rfl, hcache⟩
  -- on the components from the last one back
  induction names using List.reverseRecOn generalizing w with
  | nil => exact ⟨hw, by simp [normalForm]⟩
  | append_singleton names c ih =>
    obtain ⟨u, hu, hstep⟩ := walks_snoc.mp hw
    obtain ⟨hstack, hplain⟩ := ih (fun d hd => hnames d (List.mem_append_left _ hd)) hu
    obtain ⟨hne, hslash, hzero⟩ := hnames c (by simp)
    have hform : normalForm (names ++ [c]) = normalStep (normalForm names) c := by
      rw [normalForm, List.foldl_append]
      rfl
    rw [hform]
    by_cases hdot : c = [0x2E]
    · subst hdot
      obtain rfl := WalkStep.eq_of_dot h (Walks.attached h hroot hu) hstep
      exact ⟨hstack, hplain⟩
    by_cases hdotdot : c = [0x2E, 0x2E]
    · subst hdotdot
      rw [normalStep, if_neg (by decide), if_pos rfl]
      rcases List.eq_nil_or_concat' (normalForm names) with hnil | ⟨stack, d, hcons⟩
      · rw [hnil] at hstack ⊢
        obtain rfl : r = u := hstack
        rw [WalkStep.eq_of_dotdot_root h hr hstep]
        exact ⟨rfl, by simp⟩
      · rw [hcons] at hstack hplain ⊢
        obtain ⟨a, ha, hd⟩ := walks_snoc.mp hstack
        rw [WalkStep.eq_of_dotdot h (Walks.attached h hroot ha) (hplain d (by simp)) hd hstep,
          List.dropLast_concat]
        exact ⟨ha, fun d hd => hplain d (List.mem_append_left _ hd)⟩
    · have hc : PlainName c := ⟨hne, hdot, hdotdot, hslash, hzero⟩
      rw [normalStep_plain hc]
      refine ⟨walks_snoc.mpr ⟨u, hstack, hstep⟩, fun d hd => ?_⟩
      rcases List.mem_append.mp hd with hd | hd
      · exact hplain d hd
      · rw [List.mem_singleton.mp hd]
        exact hc

/-- A path that `vfs_lookup` resolves is walked; a walked path without a slash at its end, or one
that ends at a directory, is resolved. -/
theorem walks_of_vfsLookup {path : List UInt8} (hr : Attached s r)
    (hok : (Ramfs.vfsLookup r path s).1 = .ok w) : Walks s r (pieces 0x2F path) w := by
  rw [Ramfs.vfsLookup] at hok
  by_cases hnil : path = []
  · rw [if_pos hnil] at hok
    cases hok
  obtain ⟨x, n, hx, -, -⟩ := h.attached_vnode hr
  rw [if_neg hnil, if_neg (Heap.ne_zero hx), bind_run] at hok
  rcases h.vfsLookupLoop_ends (Nat.lt_succ_self path.length) hr with
    ⟨u, _, hrun, rfl, hu⟩ | ⟨_, _, hrun, -⟩
  · rw [hrun, andThen_ok] at hok
    rcases h.slashOnDirectory_ends hu path with ⟨_, _, hslash, -, rfl⟩ | ⟨_, _, hslash, -⟩
    · rw [hslash] at hok
      cases hok
      exact (vfsLookupLoop_iff h (Nat.lt_succ_self path.length) hr).mp hrun
    · rw [hslash] at hok
      cases hok
  · rw [hrun] at hok
    cases hok

theorem vfsLookup_of_walks {path : List UInt8} (hr : Attached s r) (hnil : path ≠ [])
    (hw : Walks s r (pieces 0x2F path) w)
    (hslash : Vfs.endsInSlash path = true → ∃ x, s.vnodes.cell w = some x ∧ x.type = .dir) :
    (Ramfs.vfsLookup r path s).1 = .ok w := by
  obtain ⟨x, n, hx, -, -⟩ := h.attached_vnode hr
  obtain ⟨y, m, hy, -, -⟩ := h.attached_vnode (Walks.attached h hr hw)
  rw [Ramfs.vfsLookup, if_neg hnil, if_neg (Heap.ne_zero hx),
    bind_ok ((vfsLookupLoop_iff h (Nat.lt_succ_self path.length) hr).mpr hw), slashOnDirectory,
    bind_ok (loadVnode hy), if_neg]
  · rfl
  · rintro ⟨hends, htype⟩
    obtain ⟨y', hy', hdir⟩ := hslash hends
    rw [Option.some.inj (hy.symm.trans hy')] at htype
    exact htype hdir

end Walk

theorem endsInSlash_canonicalText {stack : List (List UInt8)} (hplain : ∀ c ∈ stack, PlainName c)
    (hends : Vfs.endsInSlash (canonicalText stack) = true) : stack = [] := by
  rcases List.eq_nil_or_concat' stack with hnil | ⟨init, c, rfl⟩
  · exact hnil
  obtain ⟨hne, -, -, hslash, -⟩ := hplain c (by simp)
  rw [Vfs.endsInSlash, canonicalText_snoc, List.getLast?_append_of_ne_nil _ hne,
    decide_eq_true_eq] at hends
  exact absurd (List.mem_of_getLast? hends) hslash

section Agreement

variable {s : Ramfs.Tree} {held : Nat → Nat} {r v capacity : Nat} {cwd path : List UInt8} {b : Bytes}

theorem lookup_resolved (h : Sound r held s) (hcwd : Canonical cwd) (hzero : 0 ∉ path)
    (hu : capacity < 2 ^ 32) (hok : (syscallResolvePath cwd path capacity b).1 = .ok ())
    (hphys : (Ramfs.vfsLookup r (physicalPath cwd path) s).1 = .ok v) :
    (Ramfs.vfsLookup r (cString (syscallResolvePath cwd path capacity b).2 capacity) s).1 =
      .ok v := by
  obtain ⟨stack, hplain, rfl⟩ := hcwd
  have hargs : ¬ (path = [] ∨ capacity < 2) := by
    intro hbad
    rw [syscallResolvePath, if_pos hbad] at hok
    cases hok
  obtain ⟨hpath, h2⟩ := not_or.mp hargs
  have hat := (syscallResolvePath_spec (b := b) hplain hpath hzero (not_lt.mp h2) hu).atNormalForm
    (by rw [hok]; rfl)
  rw [cString_eq hat.holds (zero_not_mem_canonicalText hat.plain) hat.fits]
  obtain ⟨kids, hwf⟩ := h.wellFormed
  have hnames : ∀ c ∈ pieces 0x2F (physicalPath (canonicalText stack) path),
      c ≠ [] ∧ 0x2F ∉ c ∧ 0 ∉ c := by
    intro c hc
    obtain ⟨hne, hslash, -⟩ := mem_pieces hc
    refine ⟨hne, hslash, ?_⟩
    rw [pieces_physicalPath hplain, List.mem_append] at hc
    rcases hc with hc | hc
    · split at hc
      · cases hc
      · exact (hplain c hc).2.2.2.2
    · exact fun h0 => hzero ((mem_pieces hc).2.2 0 h0)
  obtain ⟨hwalk, -⟩ := walks_normalForm hwf h.root hnames
    (walks_of_vfsLookup hwf h.attached hphys)
  rw [normalForm_physicalPath hplain] at hat ⊢
  apply vfsLookup_of_walks hwf h.attached
  · exact List.ne_nil_of_length_pos (canonicalText_pos _)
  · rwa [pieces_canonicalText hat.plain]
  · intro hends
    rw [endsInSlash_canonicalText hat.plain hends] at hwalk
    obtain rfl : r = v := hwalk
    obtain ⟨n, hn, rfl⟩ := h.root
    obtain ⟨m, hm, htype, -⟩ := hwf.shape.rootNode
    obtain rfl := Option.some.inj (hm.symm.trans hn)
    exact ⟨_, hwf.cached hn (.inl rfl), htype⟩

/-- In every state that the system calls reach from a ramfs with any directories and files, the
resolved path leads where the text leads. -/
theorem lexical_agrees_with_physical {alloc : Nat → Bool} {root : Nat} {t₀ t : Ramfs.Tree}
    {k : Kernel} (hmount : mountRamfs (unmounted alloc) = (.ok root, t₀))
    (hdirs : Reach dirStep OnVnode t₀ t)
    (hrun : Reach fdStep (fun _ _ => True) (booted t root) k) (hcwd : Canonical cwd)
    (hzero : 0 ∉ path) (hu : capacity < 2 ^ 32)
    (hok : (syscallResolvePath cwd path capacity b).1 = .ok ())
    (hphys : (Ramfs.vfsLookup k.root (physicalPath cwd path) k.tree).1 = .ok v) :
    (Ramfs.vfsLookup k.root (cString (syscallResolvePath cwd path capacity b).2 capacity)
      k.tree).1 = .ok v :=
  lookup_resolved (inv_reached hmount hdirs hrun).sound hcwd hzero hu hok hphys

/-- `a/..` at the root of a ramfs with the directory `/a`. -/
theorem lexical_agrees_with_physical_dotdot :
    (Ramfs.vfsLookup 1 (cString (syscallResolvePath [0x2F] [0x61, 0x2F, 0x2E, 0x2E] 256
      fun _ => 0).2 256) oneDir).1 = .ok 1 := by
  have hmount : mountRamfs (unmounted fun _ => true) =
      (.ok 1, (mountRamfs (unmounted fun _ => true)).2) := rfl
  have hdirs : Reach dirStep OnVnode (mountRamfs (unmounted fun _ => true)).2 oneDir :=
    .step (DirRequest.create 1 [0x61] .dir) .start (by unfold OnVnode; decide)
  exact lexical_agrees_with_physical (k := booted oneDir 1) hmount hdirs .start
    ⟨[], by simp, rfl⟩ (by decide) (by decide) (by decide +kernel) (by decide +kernel)

end Agreement

end CfKernel.Syscall
