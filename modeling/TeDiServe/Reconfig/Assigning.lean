import TeDiServe.Library.StableSort
import TeDiServe.Reconfig.Plans
import Mathlib.Data.List.GetD

/-!
# Bundles for one executor after the other

`get_initial_config` goes through the executors and puts each on the node with the fewest
bundles assigned that has enough bundles left. `Assigning.Sound` is the invariant of this
loop, and what the loop returns is an `Assignment`.

The loop finds an assignment whenever there is one if every node but the last one with
bundles has one bundle at most: the last node keeps its bundles for larger executors until
no other node is left for the small ones.
-/

namespace TeDiServe

/-! ## Assignments -/

/-- Every executor has bundles of one node, as many as it asks for, and no two executors
have a bundle in common. -/
structure Assignment (nodeToBundles : Dict String (List ℕ)) (sizes : Dict ExecutorId ℕ)
    (c : ExecutorConfig) : Prop where
  keys : ∀ e, e ∈ c ↔ e ∈ sizes
  sized : ∀ e bs n, c.get? e = some bs → sizes.get? e = some n → bs.length = n
  nodup : ∀ e bs, c.get? e = some bs → bs.Nodup
  onNode : ∀ e bs, c.get? e = some bs → ∃ m ∈ nodeToBundles, bs ⊆ nodeToBundles.getD m []
  disjoint : c.DisjointBundles

def Complete (nodeToBundles : Dict String (List ℕ)) (sizes : Dict ExecutorId ℕ) : Prop :=
  (getInitialConfig nodeToBundles false (sizes.mapValues Int.ofNat)).Ensures
    (fun _ => ¬∃ c, Assignment nodeToBundles sizes c) (Assignment nodeToBundles sizes)

/-- The bundles of some executors are as many as they ask for, and go into every list that
has all of them. -/
theorem Assignment.sum_le {nodeToBundles : Dict String (List ℕ)} {sizes : Dict ExecutorId ℕ}
    {c : ExecutorConfig} (h : Assignment nodeToBundles sizes c) {l : List (ExecutorId × ℕ)}
    (hl : (l.map Prod.fst).Nodup) (hsub : ∀ y ∈ l, sizes.get? y.1 = some y.2) {bundles : List ℕ}
    (hin : ∀ y ∈ l, ∀ bs, c.get? y.1 = some bs → bs ⊆ bundles) :
    (l.map Prod.snd).sum ≤ bundles.length := by
  have hget : ∀ y ∈ l, ∃ bs, c.get? y.1 = some bs := fun y hy =>
    (Dict.mem_iff_exists _ _).mp ((h.keys y.1).mpr (Dict.mem_of_get? (hsub y hy)))
  have hlen : (l.flatMap fun y => c.getD y.1 []).length = (l.map Prod.snd).sum := by
    rw [List.length_flatMap]
    congr 1
    apply List.map_congr_left
    intro y hy
    obtain ⟨bs, hbs⟩ := hget y hy
    rw [Dict.getD_of_get? hbs, h.sized y.1 bs y.2 hbs (hsub y hy)]
  have hnodup : (l.flatMap fun y => c.getD y.1 []).Nodup := by
    rw [List.nodup_flatMap]
    constructor
    · intro y hy
      obtain ⟨bs, hbs⟩ := hget y hy
      rw [Dict.getD_of_get? hbs]
      exact h.nodup y.1 bs hbs
    · have hne := List.pairwise_map.mp hl
      refine hne.imp_of_mem fun {y z} hy hz hyz b hb hb' => ?_
      obtain ⟨bs, hbs⟩ := hget y hy
      obtain ⟨bs', hbs'⟩ := hget z hz
      dsimp only at hb hb'
      rw [Dict.getD_of_get? hbs] at hb
      rw [Dict.getD_of_get? hbs'] at hb'
      exact h.disjoint.not_mem hbs hbs' hyz hb hb'
  rw [← hlen]
  apply (hnodup.subperm _).length_le
  intro b hb
  obtain ⟨y, hy, hb⟩ := List.mem_flatMap.mp hb
  obtain ⟨bs, hbs⟩ := hget y hy
  rw [Dict.getD_of_get? hbs] at hb
  exact hin y hy bs hbs hb

/-! ## One executor -/

namespace Assigning

variable {nodeToBundles : Dict String (List ℕ)} {x x' : Assigning} {m m' : String}

def count (x : Assigning) (m : String) : ℤ := x.nodeAssignedCount.getD m 0

def assign (x : Assigning) (e : ExecutorId) (m : String) (bundles : List ℕ) : Assigning where
  config := x.config.set e bundles
  usedBundles := bundles.foldl OrderedSet.add x.usedBundles
  nodeAssignedCount := x.nodeAssignedCount.set m (x.count m + bundles.length)

/-- The node that an executor with `n` bundles is put on: it has the fewest bundles assigned
of all nodes with enough bundles left, and comes first among those. -/
structure Chosen (nodeToBundles : Dict String (List ℕ)) (x : Assigning) (n : ℕ) (m : String) :
    Prop where
  mem : m ∈ nodeToBundles
  enough : n ≤ (x.available nodeToBundles m).length
  least : ∀ m' ∈ nodeToBundles, n ≤ (x.available nodeToBundles m').length → m' ≠ m →
    x.count m < x.count m' ∨ x.count m = x.count m' ∧ [m, m'].Sublist nodeToBundles.keys

theorem mem_available {b : ℕ} : b ∈ x.available nodeToBundles m ↔
    b ∈ nodeToBundles.getD m [] ∧ b ∉ x.usedBundles := by
  simp [available]

theorem ensures_assignExecutor_chosen (nodeToBundles : Dict String (List ℕ)) (x : Assigning)
    (e : ExecutorId) (n : ℕ) :
    (assignExecutor nodeToBundles x e n).Ensures
      (fun _ => ∀ m ∈ nodeToBundles, (x.available nodeToBundles m).length < n) fun x' =>
      ∃ m, Chosen nodeToBundles x n m ∧
        x' = x.assign e m ((x.available nodeToBundles m).take n) := by
  unfold assignExecutor
  rw [sortedByKey_ok, ensures_bind, ensures_ok]
  cases hfind : (nodeToBundles.keys.insertionSort fun a b =>
      x.nodeAssignedCount.getD a 0 ≤ x.nodeAssignedCount.getD b 0).find? fun m =>
        (n : ℤ) ≤ (x.available nodeToBundles m).length with
  | none =>
      rw [List.find?_eq_none] at hfind
      intro m hm
      have hno := hfind m ((List.mem_insertionSort _).mpr hm)
      simpa using hno
  | some m =>
      have henough : n ≤ (x.available nodeToBundles m).length := by
        simpa using List.find?_some hfind
      refine ⟨m, ⟨(List.mem_insertionSort _).mp (List.mem_of_find?_eq_some hfind), henough, ?_⟩, ?_⟩
      · intro m' hm' henough' hne
        exact List.key_le_of_find?_insertionSort nodeToBundles.nodup_keys hfind hm'
          (by simpa using henough') hne
      · have hslice : sliceTo (x.available nodeToBundles m) (n : ℤ) =
            (x.available nodeToBundles m).take n := by
          simp [sliceTo]
        rw [hslice, assign, List.length_take_of_le henough]
        rfl

theorem mem_available_assign {e : ExecutorId} {bundles : List ℕ} {b : ℕ} :
    b ∈ (x.assign e m bundles).available nodeToBundles m' ↔
      b ∈ x.available nodeToBundles m' ∧ b ∉ bundles := by
  rw [mem_available, mem_available, assign, OrderedSet.mem_foldl_add]
  tauto

structure Sound (nodeToBundles : Dict String (List ℕ)) (done : List (ExecutorId × ℕ))
    (x : Assigning) : Prop where
  keys : ∀ e, e ∈ x.config ↔ e ∈ done.map Prod.fst
  given : ∀ y ∈ done, ∃ bs, x.config.get? y.1 = some bs ∧ bs.length = y.2 ∧ bs.Nodup ∧
    ∃ m ∈ nodeToBundles, bs ⊆ nodeToBundles.getD m []
  used : ∀ b, b ∈ x.usedBundles ↔ ∃ e bs, x.config.get? e = some bs ∧ b ∈ bs
  disjoint : x.config.DisjointBundles
  nonneg : ∀ m, 0 ≤ x.count m
  unused : ∀ m, (∀ b ∈ nodeToBundles.getD m [], b ∉ x.usedBundles) → x.count m = 0

variable {done : List (ExecutorId × ℕ)} {e : ExecutorId} {n : ℕ}

theorem Sound.step (hnodup : nodeToBundles.values.flatten.Nodup) (h : Sound nodeToBundles done x)
    (hm : Chosen nodeToBundles x n m) (he : e ∉ done.map Prod.fst) :
    Sound nodeToBundles (done ++ [(e, n)])
      (x.assign e m ((x.available nodeToBundles m).take n)) := by
  have htake : ∀ b ∈ (x.available nodeToBundles m).take n,
      b ∈ nodeToBundles.getD m [] ∧ b ∉ x.usedBundles :=
    fun b hb => mem_available.mp (List.mem_of_mem_take hb)
  have hlen : ((x.available nodeToBundles m).take n).length = n := List.length_take_of_le hm.enough
  have hbs : ((x.available nodeToBundles m).take n).Nodup :=
    ((Dict.nodup_getD hnodup hm.mem).filter _).sublist (List.take_sublist _ _)
  generalize (x.available nodeToBundles m).take n = bundles at htake hlen hbs
  have hget : ∀ {e' bs}, (x.assign e m bundles).config.get? e' = some bs →
      e' = e ∧ bs = bundles ∨ e' ≠ e ∧ x.config.get? e' = some bs := by
    intro e' bs he'
    rw [assign, Dict.get?_set] at he'
    by_cases heq : e' = e
    · rw [if_pos heq, Option.some.injEq] at he'
      exact Or.inl ⟨heq, he'.symm⟩
    · rw [if_neg heq] at he'
      exact Or.inr ⟨heq, he'⟩
  have hold : ∀ {e' bs}, x.config.get? e' = some bs →
      (x.assign e m bundles).config.get? e' = some bs := by
    intro e' bs he'
    have hne : e' ≠ e := by
      rintro rfl
      exact he ((h.keys e').mp (Dict.mem_of_get? he'))
    rw [assign, Dict.get?_set, if_neg hne, he']
  have hnew : (x.assign e m bundles).config.get? e = some bundles := Dict.get?_set_self _ _ _
  constructor
  · intro e'
    rw [assign, Dict.mem_set, h.keys, List.map_append, List.mem_append, List.map_singleton,
      List.mem_singleton, or_comm]
  · intro y hy
    rcases List.mem_append.mp hy with hy | hy
    · obtain ⟨bs, hget', hrest⟩ := h.given y hy
      exact ⟨bs, hold hget', hrest⟩
    · rw [List.mem_singleton] at hy
      rw [hy]
      exact ⟨bundles, hnew, hlen, hbs, m, hm.mem, fun b hb => (htake b hb).1⟩
  · intro b
    rw [assign, OrderedSet.mem_foldl_add, h.used]
    constructor
    · rintro (hb | ⟨e', bs, he', hb⟩)
      · exact ⟨e, bundles, hnew, hb⟩
      · exact ⟨e', bs, hold he', hb⟩
    · rintro ⟨e', bs, he', hb⟩
      rcases hget he' with ⟨-, rfl⟩ | ⟨-, he'⟩
      · exact Or.inl hb
      · exact Or.inr ⟨e', bs, he', hb⟩
  · apply disjointBundles_of_get?
    intro e₁ e₂ bs₁ bs₂ h₁ h₂ hne b hb hb'
    rcases hget h₁ with ⟨rfl, rfl⟩ | ⟨-, hold₁⟩
    · rcases hget h₂ with ⟨heq, -⟩ | ⟨-, hold₂⟩
      · exact hne heq.symm
      · exact (htake b hb).2 ((h.used b).mpr ⟨e₂, bs₂, hold₂, hb'⟩)
    · rcases hget h₂ with ⟨-, rfl⟩ | ⟨-, hold₂⟩
      · exact (htake b hb').2 ((h.used b).mpr ⟨e₁, bs₁, hold₁, hb⟩)
      · exact h.disjoint.not_mem hold₁ hold₂ hne hb hb'
  · intro m'
    have hcount := h.nonneg m'
    have hcount' := h.nonneg m
    rw [count, assign, Dict.getD_set]
    split_ifs
    · omega
    · exact hcount
  · intro m' hfree
    have hfree' : ∀ b ∈ nodeToBundles.getD m' [], b ∉ x.usedBundles ∧ b ∉ bundles := by
      intro b hb
      have hno := hfree b hb
      rw [assign, OrderedSet.mem_foldl_add, not_or] at hno
      exact hno.symm
    have hzero := h.unused m' fun b hb => (hfree' b hb).1
    rw [count, assign, Dict.getD_set]
    split_ifs with heq
    · -- nothing was taken from the node
      have hnil : bundles = [] := by
        rw [List.eq_nil_iff_forall_not_mem]
        intro b hb
        exact (hfree' b (heq ▸ (htake b hb).1)).2 hb
      rw [← heq, hzero, hnil]
      rfl
    · exact hzero

theorem Sound.assignment {sizes : Dict ExecutorId ℕ} (h : Sound nodeToBundles sizes.entries x) :
    Assignment nodeToBundles sizes x.config := by
  have hgiven : ∀ e bs, x.config.get? e = some bs → ∃ n, sizes.get? e = some n ∧
      bs.length = n ∧ bs.Nodup ∧ ∃ m ∈ nodeToBundles, bs ⊆ nodeToBundles.getD m [] := by
    intro e bs hbs
    obtain ⟨⟨e, n⟩, hy, rfl⟩ := List.mem_map.mp ((h.keys e).mp (Dict.mem_of_get? hbs))
    obtain ⟨bs', hbs', hrest⟩ := h.given _ hy
    rw [hbs, Option.some.injEq] at hbs'
    rw [← hbs'] at hrest
    exact ⟨n, (Dict.mem_entries_iff _ _ _).mp hy, hrest⟩
  refine ⟨h.keys, ?_, ?_, ?_, h.disjoint⟩
  · intro e bs n hbs hn
    obtain ⟨n', hn', hlen, -⟩ := hgiven e bs hbs
    rw [hn, Option.some.injEq] at hn'
    rw [hlen, hn']
  · intro e bs hbs
    obtain ⟨-, -, -, hbs', -⟩ := hgiven e bs hbs
    exact hbs'
  · intro e bs hbs
    obtain ⟨-, -, -, -, hon⟩ := hgiven e bs hbs
    exact hon

theorem Sound.length_le (h : Sound nodeToBundles done x) {l : List (ExecutorId × ℕ)}
    (hl : ∀ y ∈ l, y ∈ done) {bundles : List ℕ} (hbundles : bundles.Nodup)
    (hin : ∀ b ∈ bundles, ∃ y ∈ l, ∃ bs, x.config.get? y.1 = some bs ∧ b ∈ bs) :
    bundles.length ≤ (l.map Prod.snd).sum := by
  have hlen : (l.flatMap fun y => x.config.getD y.1 []).length = (l.map Prod.snd).sum := by
    rw [List.length_flatMap]
    congr 1
    apply List.map_congr_left
    intro y hy
    obtain ⟨bs, hbs, hlen, -⟩ := h.given y (hl y hy)
    rw [Dict.getD_of_get? hbs, hlen]
  rw [← hlen]
  apply (hbundles.subperm _).length_le
  intro b hb
  obtain ⟨y, hy, bs, hbs, hmem⟩ := hin b hb
  refine List.mem_flatMap.mpr ⟨y, hy, ?_⟩
  rwa [Dict.getD_of_get? hbs]

/-! ## Nodes of one bundle before the last -/

/-- Every node that comes before a node with bundles has one bundle at most. -/
def SinglesFirst (nodeToBundles : Dict String (List ℕ)) : Prop :=
  nodeToBundles.entries.Pairwise fun x y => y.2 ≠ [] → x.2.length ≤ 1

theorem SinglesFirst.length_le_one (h : SinglesFirst nodeToBundles)
    (hpair : [m, m'].Sublist nodeToBundles.keys) (hne : nodeToBundles.getD m' [] ≠ []) :
    (nodeToBundles.getD m []).length ≤ 1 := by
  have hkeys : nodeToBundles.keys.Pairwise fun m m' =>
      nodeToBundles.getD m' [] ≠ [] → (nodeToBundles.getD m []).length ≤ 1 := by
    unfold Dict.keys
    rw [List.pairwise_map]
    refine h.imp_of_mem fun {x y} hx hy hxy => ?_
    rw [Dict.getD_of_get? ((Dict.mem_entries_iff _ x.1 x.2).mp hx),
      Dict.getD_of_get? ((Dict.mem_entries_iff _ y.1 y.2).mp hy)]
    exact hxy
  exact List.pairwise_iff_forall_sublist.mp hkeys hpair hne

/-- A single bundle of the node is only given away when no other node has one left. -/
def Tight (nodeToBundles : Dict String (List ℕ)) (x : Assigning) (m : String) : Prop :=
  (∀ e bs, x.config.get? e = some bs → bs.length = 1 → ∀ b ∈ bs, b ∉ nodeToBundles.getD m []) ∨
    ∀ m', m' ≠ m → x.available nodeToBundles m' = []

theorem Tight.step (hnodup : nodeToBundles.values.flatten.Nodup)
    (hfirst : SinglesFirst nodeToBundles) (h : Sound nodeToBundles done x)
    (hm : Chosen nodeToBundles x n m)
    (hbig : 2 ≤ (nodeToBundles.getD m' []).length) (ht : Tight nodeToBundles x m') :
    Tight nodeToBundles (x.assign e m ((x.available nodeToBundles m).take n)) m' := by
  rcases ht with hnone | hfull
  swap
  · refine Or.inr fun m₁ hne => ?_
    rw [List.eq_nil_iff_forall_not_mem]
    intro b hb
    have hold := (mem_available_assign.mp hb).1
    rw [hfull m₁ hne] at hold
    cases hold
  by_cases hone : n = 1 ∧ m = m'
  · obtain ⟨rfl, rfl⟩ := hone
    refine Or.inr fun m₁ hne => ?_
    rw [List.eq_nil_iff_forall_not_mem]
    intro b hb
    have hold := (mem_available_assign.mp hb).1
    obtain ⟨hb₁, hfree⟩ := mem_available.mp hold
    have hne₁ : nodeToBundles.getD m₁ [] ≠ [] := List.ne_nil_of_mem hb₁
    have hmem₁ := Dict.mem_of_getD_ne_nil hne₁
    have hafter : ¬[m, m₁].Sublist nodeToBundles.keys := fun hpair => by
      have := hfirst.length_le_one hpair hne₁
      omega
    have hbefore := (List.pair_sublist_or hm.mem hmem₁ hne.symm).resolve_left hafter
    -- the other node has one bundle, which is not used
    have hsmall := hfirst.length_le_one hbefore (by
      intro hnil
      rw [hnil] at hbig
      simp at hbig)
    have hzero : x.count m₁ = 0 := by
      apply h.unused
      intro b' hb'
      have hsingle : nodeToBundles.getD m₁ [] = [b] := by
        obtain ⟨b₀, hb₀⟩ := List.length_eq_one_iff.mp
          (le_antisymm hsmall (List.length_pos_of_mem hb₁))
        rw [hb₀] at hb₁ ⊢
        rw [List.mem_singleton.mp hb₁]
      rw [hsingle, List.mem_singleton] at hb'
      rwa [hb']
    have hnonneg := h.nonneg m
    rcases hm.least m₁ hmem₁ (List.length_pos_of_mem hold) hne with hlt | ⟨-, hpair⟩
    · omega
    · exact hafter hpair
  · refine Or.inl fun e' bs he' hlen b hb hb' => ?_
    rw [assign, Dict.get?_set] at he'
    split_ifs at he' with heq
    · rw [Option.some.injEq] at he'
      rw [← he'] at hb hlen
      rw [List.length_take_of_le hm.enough] at hlen
      refine hone ⟨hlen, ?_⟩
      exact Dict.eq_of_mem_getD hnodup (mem_available.mp (List.mem_of_mem_take hb)).1 hb'
    · exact hnone e' bs he' hlen b hb hb'

theorem SinglesFirst.eq_of_two_le (h : SinglesFirst nodeToBundles)
    (hm : 2 ≤ (nodeToBundles.getD m []).length) (hm' : 2 ≤ (nodeToBundles.getD m' []).length) :
    m = m' := by
  have hne : ∀ {k}, 2 ≤ (nodeToBundles.getD k []).length → nodeToBundles.getD k [] ≠ [] :=
    fun hk => List.ne_nil_of_length_pos (by omega)
  by_contra hmm'
  rcases List.pair_sublist_or (Dict.mem_of_getD_ne_nil (hne hm)) (Dict.mem_of_getD_ne_nil (hne hm'))
    hmm' with hpair | hpair
  · have := h.length_le_one hpair (hne hm')
    omega
  · have := h.length_le_one hpair (hne hm)
    omega

theorem length_used_add (x : Assigning) (bundles : List ℕ) :
    (bundles.filter (· ∈ x.usedBundles)).length + (bundles.filter (· ∉ x.usedBundles)).length =
      bundles.length := by
  have hsplit := List.length_eq_length_filter_add (l := bundles) fun b => decide (b ∈ x.usedBundles)
  simp only [decide_not]
  exact hsplit.symm

/-- As long as an assignment exists, there is a node for the next executor. -/
theorem exists_enough {sizes : Dict ExecutorId ℕ} {c : ExecutorConfig}
    {rest : List (ExecutorId × ℕ)} (hnodup : nodeToBundles.values.flatten.Nodup)
    (hfirst : SinglesFirst nodeToBundles) (hc : Assignment nodeToBundles sizes c)
    (hsizes : sizes.entries = done ++ (e, n) :: rest) (h : Sound nodeToBundles done x)
    (ht : ∀ m, 2 ≤ (nodeToBundles.getD m []).length → Tight nodeToBundles x m) :
    ∃ m ∈ nodeToBundles, n ≤ (x.available nodeToBundles m).length := by
  have hget : ∀ y ∈ done ++ [(e, n)], sizes.get? y.1 = some y.2 := by
    intro y hy
    apply (Dict.mem_entries_iff _ y.1 y.2).mp
    rw [hsizes]
    rcases List.mem_append.mp hy with hy | hy
    · exact List.mem_append_left _ hy
    · rw [List.mem_singleton] at hy
      rw [hy]
      exact List.mem_append_right _ List.mem_cons_self
  have hkeys : ((done ++ [(e, n)]).map Prod.fst).Nodup := by
    have hall := sizes.nodup
    rw [hsizes] at hall
    refine hall.sublist (List.Sublist.map _ ?_)
    exact (List.append_sublist_append_left _).mpr ((List.nil_sublist rest).cons_cons (e, n))
  obtain ⟨bs, hbs⟩ := (Dict.mem_iff_exists c e).mp ((hc.keys e).mpr (Dict.mem_of_get?
    (hget (e, n) (List.mem_append_right _ (List.mem_singleton_self _)))))
  have hlen := hc.sized e bs n hbs
    (hget (e, n) (List.mem_append_right _ (List.mem_singleton_self _)))
  obtain ⟨m, hm, hon⟩ := hc.onNode e bs hbs
  -- the bundles that are left are enough, taken together
  have htotal : n ≤ (nodeToBundles.values.flatten.filter (· ∉ x.usedBundles)).length := by
    have hsum : ((done ++ [(e, n)]).map Prod.snd).sum ≤ nodeToBundles.values.flatten.length := by
      refine hc.sum_le hkeys hget fun y _ bs' hbs' b hb => ?_
      obtain ⟨m', -, hon'⟩ := hc.onNode y.1 bs' hbs'
      exact Dict.mem_flatten_of_mem_getD (hon' hb)
    have hused : (nodeToBundles.values.flatten.filter (· ∈ x.usedBundles)).length ≤
        (done.map Prod.snd).sum := by
      refine h.length_le (fun y hy => hy) (hnodup.filter _) fun b hb => ?_
      have hb' : b ∈ x.usedBundles := by simpa using (List.mem_filter.mp hb).2
      obtain ⟨e', bs', hbs', hmem⟩ := (h.used b).mp hb'
      obtain ⟨y, hy, rfl⟩ := List.mem_map.mp ((h.keys e').mp (Dict.mem_of_get? hbs'))
      exact ⟨y, hy, bs', hbs', hmem⟩
    have hsplit := x.length_used_add nodeToBundles.values.flatten
    simp only [List.map_append, List.sum_append, List.map_singleton, List.sum_singleton] at hsum
    omega
  by_cases hsmall : n ≤ 1
  · rcases Nat.eq_zero_or_pos n with rfl | hpos
    · exact ⟨m, hm, Nat.zero_le _⟩
    · obtain ⟨b, hb⟩ := List.exists_mem_of_length_pos (hpos.trans_le htotal)
      rw [List.mem_filter] at hb
      obtain ⟨m', hm', hb'⟩ := Dict.exists_mem_getD_of_mem_flatten hb.1
      have hmem : b ∈ x.available nodeToBundles m' :=
        mem_available.mpr ⟨hb', by simpa using hb.2⟩
      exact ⟨m', hm', hsmall.trans (List.length_pos_of_mem hmem)⟩
  · refine ⟨m, hm, ?_⟩
    have hbig : 2 ≤ (nodeToBundles.getD m []).length := by
      have hle := ((hc.nodup e bs hbs).subperm hon).length_le
      omega
    rcases ht m hbig with hnone | hfull
    · -- the bundles of the node were only given to larger executors, which are all on it
      have hsub : ∀ y ∈ done.filter (fun y => 2 ≤ y.2), y ∈ done ∧ 2 ≤ y.2 := by
        intro y hy
        simpa using hy
      have hsum : ((done.filter (fun y => 2 ≤ y.2) ++ [(e, n)]).map Prod.snd).sum ≤
          (nodeToBundles.getD m []).length := by
        have hsublist : (done.filter (fun y => 2 ≤ y.2) ++ [(e, n)]).Sublist (done ++ [(e, n)]) :=
          List.filter_sublist.append_right _
        refine hc.sum_le (hkeys.sublist (hsublist.map _)) (fun y hy => hget y (hsublist.subset hy))
          fun y hy bs' hbs' => ?_
        obtain ⟨m', -, hon'⟩ := hc.onNode y.1 bs' hbs'
        have hsize : 2 ≤ bs'.length := by
          rw [hc.sized y.1 bs' y.2 hbs' (hget y (hsublist.subset hy))]
          rcases List.mem_append.mp hy with hy | hy
          · exact (hsub y hy).2
          · rw [List.mem_singleton] at hy
            rw [hy]
            exact Nat.lt_of_not_le hsmall
        have hle := ((hc.nodup y.1 bs' hbs').subperm hon').length_le
        rwa [hfirst.eq_of_two_le (hsize.trans hle) hbig] at hon'
      have hused : ((nodeToBundles.getD m []).filter (· ∈ x.usedBundles)).length ≤
          ((done.filter fun y => 2 ≤ y.2).map Prod.snd).sum := by
        refine h.length_le (fun y hy => (hsub y hy).1) ((Dict.nodup_getD hnodup hm).filter _)
          fun b hb => ?_
        obtain ⟨hbm, hb'⟩ := List.mem_filter.mp hb
        obtain ⟨e', bs', hbs', hmem⟩ := (h.used b).mp (of_decide_eq_true hb')
        obtain ⟨y, hy, rfl⟩ := List.mem_map.mp ((h.keys e').mp (Dict.mem_of_get? hbs'))
        refine ⟨y, List.mem_filter.mpr ⟨hy, decide_eq_true ?_⟩, bs', hbs', hmem⟩
        obtain ⟨bs'', hbs'', hlen', -⟩ := h.given y hy
        rw [hbs', Option.some.injEq] at hbs''
        rw [← hbs''] at hlen'
        have hpos := List.length_pos_of_mem hmem
        have hone : bs'.length ≠ 1 := fun hone => hnone y.1 bs' hbs' hone b hmem hbm
        omega
      have hsplit := x.length_used_add (nodeToBundles.getD m [])
      simp only [List.map_append, List.sum_append, List.map_singleton, List.sum_singleton] at hsum
      rw [available]
      omega
    · -- all bundles that are left are on the node
      refine htotal.trans ((hnodup.filter _).subperm fun b hb => ?_).length_le
      rw [List.mem_filter, decide_eq_true_eq] at hb
      obtain ⟨m', -, hb'⟩ := Dict.exists_mem_getD_of_mem_flatten hb.1
      have hmem := mem_available.mpr ⟨hb', hb.2⟩
      by_cases heq : m' = m
      · rwa [heq] at hmem
      · rw [hfull m' heq] at hmem
        cases hmem

/-- The loop over the executors finds an assignment if there is one. -/
theorem complete_of_singlesFirst (hnodup : nodeToBundles.values.flatten.Nodup)
    (hfirst : SinglesFirst nodeToBundles) (sizes : Dict ExecutorId ℕ) :
    Complete nodeToBundles sizes := by
  have hentries : (sizes.mapValues Int.ofNat).entries =
      sizes.entries.map fun y => (y.1, (y.2 : ℤ)) := rfl
  unfold Complete getInitialConfig
  rw [if_neg Bool.false_ne_true, ensures_bind, hentries, List.foldlM_map]
  refine (ensures_foldlM_rest (fun rest x => ∃ done, sizes.entries = done ++ rest ∧
    Sound nodeToBundles done x ∧
    ∀ m, 2 ≤ (nodeToBundles.getD m []).length → Tight nodeToBundles x m) ?_ sizes.entries _
    ⟨[], rfl, ?_, ?_⟩).imp ?_
  · rintro x ⟨e, n⟩ rest ⟨done, hsizes, hsound, htight⟩
    have he : e ∉ done.map Prod.fst := by
      have hall := sizes.nodup
      rw [hsizes, List.map_append, List.nodup_append] at hall
      intro hmem
      exact hall.2.2 e hmem e (List.mem_map_of_mem List.mem_cons_self) rfl
    apply (ensures_assignExecutor_chosen nodeToBundles x e n).mono
    · rintro _ hnone ⟨c, hc⟩
      obtain ⟨m, hm, henough⟩ := exists_enough hnodup hfirst hc hsizes hsound htight
      exact absurd (hnone m hm) (Nat.not_lt.mpr henough)
    · rintro x' ⟨m, hm, rfl⟩
      refine ⟨done ++ [(e, n)], ?_, hsound.step hnodup hm he, ?_⟩
      · rw [hsizes, List.append_assoc, List.singleton_append]
      · exact fun m' hm' => (htight m' hm').step hnodup hfirst hsound hm hm'
  · refine ⟨?_, ?_, ?_, ?_, ?_, ?_⟩
    · intro e
      exact iff_of_false (Dict.not_mem_empty e) List.not_mem_nil
    · intro y hy
      cases hy
    · intro b
      refine iff_of_false (OrderedSet.not_mem_empty b) ?_
      rintro ⟨e, bs, he, -⟩
      cases he
    · intro y hy
      cases hy
    · exact fun m => le_rfl
    · exact fun m _ => rfl
  · intro m _
    refine Or.inl fun e bs he => ?_
    cases he
  · rintro x ⟨done, hdone, hsound, -⟩
    rw [List.append_nil] at hdone
    rw [ensures_pure]
    exact (hdone ▸ hsound).assignment

end Assigning

end TeDiServe
