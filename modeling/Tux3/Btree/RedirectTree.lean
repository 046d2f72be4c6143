/-
  Btree/RedirectTree.lean --- the tree after `cursor_redirect`.

  It is the tree before under other names of blocks: every replaced block of the path has a new
  name, the entry above it has that name, and the old block is queued once.
-/
import Tux3.Btree.Redirect

set_option autoImplicit false

namespace Tux3

open IndexForest
open Outcome (Ensures bind_eq_ok)

variable {L : Type}

/-! ## One turn -/

/-- A block was taken and the contents of an old one copied there; the frees that were deferred. -/
structure TookBlock (sb sb₁ : BtreeSb L) (new : Nat) (defree deunify : List BlockSegment) :
    Prop where
  free : sb.bitmap new = false
  bitmap : sb₁.bitmap = Function.update sb.bitmap new true
  state : ∀ b, b ≠ new → sb₁.state b = sb.state b
  defree : sb₁.defree = sb.defree ++ defree
  deunify : sb₁.deunify = sb.deunify ++ deunify

section

variable {sb sb' : BtreeSb L} {root root' : Root} {up : List PathLevel} {old new : Nat}

theorem newBlock_ok (h : newBlock sb = .ok (sb', new)) : sb.bitmap new = false ∧
    sb'.bitmap = Function.update sb.bitmap new true ∧ sb'.state = sb.state ∧
    sb'.defree = sb.defree ∧ sb'.deunify = sb.deunify ∧ sb'.bnodes = sb.bnodes ∧
    sb'.leaves = sb.leaves := by
  obtain ⟨⟨vol, block⟩, halloc, hok⟩ := bind_eq_ok.mp h
  cases hok
  obtain ⟨hfree, -, hvol⟩ := VolSb.balloc_spec _ halloc
  rw [hvol]
  exact ⟨hfree, rfl, rfl, rfl, rfl, rfl, rfl⟩

/-- A turn at a bnode. -/
theorem redirectBnode_ok (h : redirectBnode sb root up old = .ok (sb', root', new)) :
    (sb.state old = .unify ∧ sb' = sb ∧ root' = root ∧ new = old) ∨
    (sb.state old ≠ .unify ∧ ∃ sb₁, TookBlock sb sb₁ new [] [⟨old, 1⟩] ∧
      sb₁.bnodes = Function.update sb.bnodes new (sb.bnodes old) ∧ sb₁.leaves = sb.leaves ∧
      redirectParent sb₁ root up old new = .ok (sb', root')) := by
  unfold redirectBnode at h
  split at h
  · rename_i hunify
    cases h
    exact .inl ⟨hunify, rfl, rfl, rfl⟩
  · rename_i hneed
    obtain ⟨⟨sb₀, block⟩, hnew, h⟩ := bind_eq_ok.mp h
    obtain ⟨hfree, hbitmap, hstate, hdefree, hdeunify, hbnodes, hleaves⟩ := newBlock_ok hnew
    obtain ⟨⟨sb₂, root₂⟩, hparent, hok⟩ := bind_eq_ok.mp h
    cases hok
    refine .inr ⟨hneed, _, ?_, ?_, ?_, hparent⟩
    · refine ⟨hfree, (VolSb.markAtomic_bitmap _ _ _).trans hbitmap, fun b hb => ?_, ?_, ?_⟩
      · exact (VolSb.markAtomic_state_of_ne _ _ _ hb).trans (congrFun hstate b)
      · exact ((VolSb.markAtomic_defree _ _ _).trans hdefree).trans (List.append_nil _).symm
      · show (sb₀.toVolSb.markAtomic .unify new).deunify ++ _ = _
        rw [VolSb.markAtomic_deunify, hdeunify]
    · show Function.update sb₀.bnodes new (sb₀.bnodes old) = _
      rw [hbnodes]
    · exact hleaves

/-- The turn at the leaf. -/
theorem redirectLeaf_ok (h : redirectLeaf sb root up old = .ok (sb', root', new)) :
    (sb.state old ≠ .clean ∧ sb' = sb ∧ root' = root ∧ new = old) ∨
    (sb.state old = .clean ∧ ∃ sb₁, TookBlock sb sb₁ new [⟨old, 1⟩] [] ∧
      sb₁.bnodes = sb.bnodes ∧ sb₁.leaves = Function.update sb.leaves new (sb.leaves old) ∧
      redirectParent sb₁ root up old new = .ok (sb', root')) := by
  unfold redirectLeaf at h
  split at h
  · rename_i hdirty
    cases h
    exact .inl ⟨hdirty, rfl, rfl, rfl⟩
  · rename_i hneed
    obtain ⟨⟨sb₀, block⟩, hnew, h⟩ := bind_eq_ok.mp h
    obtain ⟨hfree, hbitmap, hstate, hdefree, hdeunify, hbnodes, hleaves⟩ := newBlock_ok hnew
    obtain ⟨⟨sb₂, root₂⟩, hparent, hok⟩ := bind_eq_ok.mp h
    cases hok
    refine .inr ⟨not_not.mp hneed, _, ?_, ?_, ?_, hparent⟩
    · refine ⟨hfree, (VolSb.markAtomic_bitmap _ _ _).trans hbitmap, fun b hb => ?_, ?_, ?_⟩
      · exact (VolSb.markAtomic_state_of_ne _ _ _ hb).trans (congrFun hstate b)
      · show (sb₀.toVolSb.markAtomic .delta new).defree ++ _ = _
        rw [VolSb.markAtomic_defree, hdefree]
      · exact ((VolSb.markAtomic_deunify _ _ _).trans hdeunify).trans (List.append_nil _).symm
    · exact hbnodes
    · show Function.update sb₀.leaves new (sb₀.leaves old) = _
      rw [hleaves]

/-- Pointing the entry above to the new block. -/
theorem redirectParent_ok (h : redirectParent sb root up old new = .ok (sb', root')) :
    sb'.bitmap = sb.bitmap ∧ sb'.state = sb.state ∧ sb'.defree = sb.defree ∧
      sb'.deunify = sb.deunify ∧ sb'.leaves = sb.leaves ∧
      (up = [] ∧ old = root.block ∧ sb'.bnodes = sb.bnodes ∧ root' = { root with block := new } ∨
        ∃ s rest entry, up = s :: rest ∧ root' = root ∧
          entryBefore (sb.bnodes s.block) s.next = .ok entry ∧
          sb'.bnodes = Function.update sb.bnodes s.block
            (bnodeSetBlock (sb.bnodes s.block) (s.next - 1) entry new)) := by
  cases up with
  | nil =>
      obtain ⟨_, hassert, h⟩ := bind_eq_ok.mp h
      cases h
      exact ⟨rfl, rfl, rfl, rfl, rfl, .inl ⟨rfl, tuxAssert_eq_ok.mp hassert, rfl, rfl⟩⟩
  | cons s rest =>
      obtain ⟨entry, hentry, h⟩ := bind_eq_ok.mp h
      cases h
      exact ⟨rfl, rfl, rfl, rfl, rfl, .inr ⟨s, rest, entry, rfl, rfl, hentry, rfl⟩⟩

end

/-! ## The bnodes of a path -/

/-- The bnodes of a path that have to be replaced, root first. -/
def replacedNodes (sb : BtreeSb L) (path : List PathLevel) : List BlockSegment :=
  (path.reverse.filter fun s => sb.state s.block ≠ .unify).map fun s => ⟨s.block, 1⟩

/-- A path under other names. -/
def renamePath (r : Nat → Nat) (path : List PathLevel) : List PathLevel :=
  path.map fun s => ⟨r s.block, s.next⟩

/-- The nodes above the entry that a path leads to, after those of the path were redirected: `r` are
their names. -/
structure PathRenamed (r : Nat → Nat) (sb : BtreeSb L) (root : Root) (path : List PathLevel)
    (sb' : BtreeSb L) (root' : Root) : Prop where
  renamed : Renamed r sb.bnodes sb'.bnodes root.entry path.length
  root : root' = ⟨r root.block, root.depth⟩
  moved : ∀ b, r b ≠ b ↔ ∃ s ∈ path, s.block = b ∧ sb.state b ≠ .unify
  fresh : ∀ b, r b ≠ b → sb.bitmap (r b) = false
  inj : ∀ b b', sb.bitmap b = true → sb.bitmap b' = true → r b = r b' → b = b'
  bitmap : ∀ b, sb'.bitmap b = true ↔ sb.bitmap b = true ∨ ∃ a, r a ≠ a ∧ r a = b
  nodes : ∀ b, (∀ s ∈ path, s.block ≠ b) → (∀ a, r a ≠ a → r a ≠ b) →
    sb'.bnodes b = sb.bnodes b
  leaves : sb'.leaves = sb.leaves
  state : ∀ b, (∀ a, r a ≠ a → r a ≠ b) → sb'.state b = sb.state b
  defree : sb'.defree = sb.defree
  deunify : sb'.deunify = sb.deunify ++ replacedNodes sb path

section

variable {r : Nat → Nat} {sb sb₁ sb₂ sb₃ : BtreeSb L} {root root₁ root₃ : Root}
  {up : List PathLevel} {P Q : List IndexEntry} {f : IndexEntry} {new : Nat}

theorem PathRenamed.refl (sb : BtreeSb L) (root : Root) : PathRenamed id sb root [] sb root where
  renamed := fun _ hb => absurd hb List.not_mem_nil
  root := rfl
  moved := fun _ => ⟨fun hne => absurd rfl hne, fun ⟨_, hs, _⟩ => absurd hs List.not_mem_nil⟩
  fresh := fun _ hne => absurd rfl hne
  inj := fun _ _ _ _ h => h
  bitmap := fun _ => ⟨.inl, fun h => h.elim id fun ⟨_, hne, _⟩ => absurd rfl hne⟩
  nodes := fun _ _ _ => rfl
  leaves := rfl
  state := fun _ _ => rfl
  defree := rfl
  deunify := (List.append_nil _).symm

/-- The names are those of allocated blocks. -/
theorem PathRenamed.bitmap_name (h : PathRenamed r sb root up sb₁ root₁) {b : Nat}
    (hb : sb.bitmap b = true) : sb₁.bitmap (r b) = true := by
  rw [h.bitmap]
  by_cases hne : r b = b
  · rw [hne]
    exact .inl hb
  · exact .inr ⟨b, hne, rfl⟩

theorem PathRenamed.name_ne (h : PathRenamed r sb root up sb₁ root₁) {b : Nat}
    (hb : sb.bitmap b = true) (hnew : sb₁.bitmap new = false) : r b ≠ new := by
  rintro rfl
  rw [h.bitmap_name hb] at hnew
  cases hnew

/-- An allocated block is not the new name of another one. -/
theorem PathRenamed.not_name (h : PathRenamed r sb root up sb₁ root₁) {b : Nat}
    (hb : sb.bitmap b = true) : ∀ a, r a ≠ a → r a ≠ b := by
  rintro a hne rfl
  rw [h.fresh a hne] at hb
  cases hb

/-- The block that the path leads to has its old name. -/
theorem PathRenamed.name_eq (h : PathRenamed r sb root up sb₁ root₁)
    (hloc : Located sb.bnodes root.entry up P f Q) {b : Nat}
    (hb : b ∉ blocksBelow sb.bnodes root.entry up.length) : r b = b := by
  by_contra hne
  obtain ⟨s, hs, rfl, -⟩ := (h.moved b).mp hne
  exact hb (hloc.step_mem s hs)

/-- After the entry above `f` was pointed to its new block, the nodes above are there under the
names with that of `f`. -/
theorem PathRenamed.repoint (h : PathRenamed r sb root up sb₁ root₁)
    (hloc : Located sb.bnodes root.entry up P f Q)
    (hd : Distinct sb.bnodes root.entry up.length)
    (halloc : ∀ b ∈ blocksBelow sb.bnodes root.entry (up.length + 1), sb.bitmap b = true)
    (hnew : sb₁.bitmap new = false) (hsame : ∀ b, b ≠ new → sb₂.bnodes b = sb₁.bnodes b)
    (hparent : redirectParent sb₂ root₁ (renamePath r up) f.block new = .ok (sb₃, root₃)) :
    Renamed (Function.update r f.block new) sb.bnodes sb₃.bnodes root.entry up.length ∧
      root₃ = ⟨Function.update r f.block new root.block, root.depth⟩ ∧
      ∀ b, (∀ s ∈ up, r s.block ≠ b) → sb₃.bnodes b = sb₂.bnodes b := by
  obtain ⟨hfresh, hpre, hpost⟩ := hloc.fresh hd
  have habove : ∀ b ∈ blocksBelow sb.bnodes root.entry up.length, sb.bitmap b = true :=
    fun b hb => halloc b (List.mem_append_left _ hb)
  have hold : ∀ b ∈ blocksBelow sb.bnodes root.entry up.length,
      sb₂.bnodes (r b) = (sb.bnodes b).map (Entry.rename r) := fun b hb => by
    rw [hsame _ (h.name_ne (habove b hb) hnew), h.renamed b hb]
  have hname : ∀ b ∈ blocksBelow sb.bnodes root.entry up.length,
      Function.update r f.block new b = r b :=
    fun b hb => Function.update_of_ne (fun heq : b = f.block => hfresh (heq ▸ hb)) _ _
  obtain ⟨-, -, -, -, -, hcase⟩ := redirectParent_ok hparent
  cases up with
  | nil =>
      rcases hcase with ⟨-, hroot, hbnodes, rfl⟩ | ⟨s, rest, -, hfalse, -⟩
      · obtain ⟨-, rfl, -⟩ := hloc
        refine ⟨fun b hb => absurd hb List.not_mem_nil, ?_, fun b _ => by rw [hbnodes]⟩
        show (⟨new, root₁.depth⟩ : Root) =
          ⟨Function.update r root.block new root.block, root.depth⟩
        rw [h.root, Function.update_self]
      · exact nomatch hfalse
  | cons s up =>
      rcases hcase with ⟨hfalse, -⟩ | ⟨s', rest, entry, hup, rfl, hentry, hbnodes⟩
      · exact nomatch hfalse
      · cases hup
        have hs : s.block ∈ blocksBelow sb.bnodes root.entry (s :: up).length :=
          hloc.step_mem s List.mem_cons_self
        have hroot : root.block ∈ blocksBelow sb.bnodes root.entry (s :: up).length :=
          mem_blocksBelow_of_mem_level (m := 0) (Nat.succ_pos _) (List.mem_singleton_self _)
        have hchild := @fun b => hloc.child_ne hd (b := b)
        have hstep := hloc.step_mem
        obtain ⟨P', g, Q', A, C, -, hblock, hnode, hnext, rfl, rfl⟩ := hloc
        have hfname : r f.block = f.block := by
          by_contra hne
          obtain ⟨t, ht, heq, -⟩ := (h.moved f.block).mp hne
          refine hfresh (heq ▸ ?_)
          exact hstep t ht
        have hsplit : sb₂.bnodes (r s.block) = A.map (Entry.rename r) ++ f ::
            C.map (Entry.rename r) := by
          rw [hold _ hs, hblock, hnode, List.map_append, List.map_cons]
          exact congrArg (A.map _ ++ · :: C.map _) (congrArg (Entry.mk f.key) hfname)
        have hentry' : entry = f := by
          have hat : entryBefore (sb₂.bnodes (r s.block)) s.next = .ok entry := hentry
          rw [hsplit, hnext, ← List.length_map (Entry.rename r), entryBefore_append] at hat
          exact (Except.ok.inj hat).symm
        have hset : sb₃.bnodes = Function.update sb₂.bnodes (r s.block)
            (A.map (Entry.rename r) ++ ⟨f.key, new⟩ :: C.map (Entry.rename r)) := by
          rw [hbnodes, hentry']
          show Function.update sb₂.bnodes (r s.block)
            (bnodeSetBlock (sb₂.bnodes (r s.block)) (s.next - 1) f new) = _
          rw [hsplit, hnext, Nat.add_sub_cancel, ← List.length_map (Entry.rename r),
            bnodeSetBlock_append]
        -- the other entries do not have the block of `f`
        have hothers : ∀ l : List IndexEntry, (∀ c ∈ l, c.block ≠ f.block) →
            l.map (Entry.rename r) = l.map (Entry.rename (Function.update r f.block new)) :=
          fun l hl => List.map_congr_left fun c hc =>
            congrArg (Entry.mk c.key) (Function.update_of_ne (hl c hc) _ _).symm
        refine ⟨fun b hb => ?_, ?_, fun b hb => ?_⟩
        · rw [hname b hb, hset]
          by_cases hbs : b = s.block
          · have hA : ∀ c ∈ A, c.block ≠ f.block := fun c hc heq =>
              hpre (heq ▸ List.mem_map_of_mem (List.mem_append_right _ hc))
            have hC : ∀ c ∈ C, c.block ≠ f.block := fun c hc heq =>
              hpost (heq ▸ List.mem_map_of_mem (List.mem_append_left _ hc))
            rw [hbs, Function.update_self, hblock, hnode, List.map_append, List.map_cons,
              hothers A hA, hothers C hC]
            have hself : Function.update r f.block new f.block = new := Function.update_self _ _ _
            exact congrArg (A.map _ ++ · :: C.map _) (congrArg (Entry.mk f.key) hself.symm)
          · have hne : r b ≠ r s.block := fun heq =>
              hbs (h.inj b s.block (habove b hb) (habove _ hs) heq)
            rw [Function.update_of_ne hne, hold b hb]
            exact hothers _ (hchild b hb hbs)
        · rw [h.root, hname _ hroot]
        · rw [hset, Function.update_of_ne]
          exact fun heq => hb s List.mem_cons_self heq.symm

/-- An allocated block that is not on the path has no name of one that is. -/
theorem PathRenamed.ne_name (h : PathRenamed r sb root up sb₁ root₁) {b : Nat}
    (hb : sb.bitmap b = true) (hpath : ∀ t ∈ up, t.block ≠ b) : ∀ t ∈ up, r t.block ≠ b := by
  intro t ht heq
  by_cases hsame : r t.block = t.block
  · exact hpath t ht (hsame.symm.trans heq)
  · exact h.not_name hb _ hsame heq

/-- The nodes beside the path are as they were. -/
theorem PathRenamed.row (h : PathRenamed r sb root up sb₁ root₁)
    (hloc : Located sb.bnodes root.entry up P f Q)
    (hd : Distinct sb.bnodes root.entry up.length) {g : IndexEntry}
    (hg : g ∈ level sb.bnodes root.entry up.length) (hb : sb.bitmap g.block = true) :
    sb₁.bnodes g.block = sb.bnodes g.block ∧ ∀ t ∈ up, r t.block ≠ g.block := by
  have hpath : ∀ t ∈ up, t.block ≠ g.block := fun t ht heq =>
    hd.row hg (heq ▸ hloc.step_mem t ht)
  exact ⟨h.nodes _ hpath (h.not_name hb), h.ne_name hb hpath⟩

/-- The entries of the lowest nodes are not renamed. -/
theorem map_rename_row {heap : Heap Nat Nat} {e : IndexEntry} {n : Nat}
    (hd : Distinct heap e (n + 1)) (hr : ∀ b, b ∉ blocksBelow heap e (n + 1) → r b = b)
    {g : IndexEntry} (hg : g ∈ level heap e n) :
    (heap g.block).map (Entry.rename r) = heap g.block := by
  conv_rhs => rw [← List.map_id (heap g.block)]
  refine List.map_congr_left fun c hc => ?_
  have hlevel : c ∈ level heap e (n + 1) := List.mem_flatMap.mpr ⟨g, hg, hc⟩
  exact congrArg (Entry.mk c.key) (hr _ (hd.row hlevel))

/-- A turn at the next bnode of the path. -/
theorem PathRenamed.cons {s : PathLevel} {pre post : List IndexEntry} {e : IndexEntry}
    (h : PathRenamed r sb root up sb₁ root₁)
    (hloc : Located sb.bnodes root.entry (s :: up) pre e post)
    (hd : Distinct sb.bnodes root.entry (up.length + 1))
    (halloc : ∀ b ∈ blocksBelow sb.bnodes root.entry (up.length + 1), sb.bitmap b = true)
    (hok : redirectBnode sb₁ root₁ (renamePath r up) s.block = .ok (sb₃, root₃, new)) :
    ∃ r', PathRenamed r' sb root (s :: up) sb₃ root₃ ∧
      (⟨new, s.next⟩ :: renamePath r up : List PathLevel) = renamePath r' (s :: up) := by
  obtain ⟨P, f, Q, A, C, hup, hblock, -, -, -, -⟩ := hloc
  have hrowalloc : ∀ g ∈ level sb.bnodes root.entry up.length, sb.bitmap g.block = true :=
    fun g hg => halloc _ (mem_blocksBelow_of_mem_level (Nat.lt_succ_self _) hg)
  have hf : f ∈ level sb.bnodes root.entry up.length := by
    rw [hup.level]
    exact List.mem_append_right _ List.mem_cons_self
  have hfalloc := hrowalloc f hf
  have hfabove := hd.pred.row hf
  have hfname : r f.block = f.block := h.name_eq hup hfabove
  have hstate : sb₁.state f.block = sb.state f.block := h.state _ (h.not_name hfalloc)
  have hupne : ∀ t ∈ up, t.block ≠ f.block := fun t ht heq =>
    hfabove (heq ▸ hup.step_mem t ht)
  rw [hblock] at hok
  rcases redirectBnode_ok hok with ⟨hunify, rfl, rfl, rfl⟩ |
    ⟨hneed, sb₂, ⟨hfree, hbitmap, hstate₂, hdefree, hdeunify⟩, hbnodes, hleaves, hparent⟩
  · rw [hstate] at hunify
    have hnames : ∀ b, b ∉ blocksBelow sb.bnodes root.entry (up.length + 1) → r b = b :=
      fun b hb => h.name_eq hup fun hmem => hb (List.mem_append_left _ hmem)
    refine ⟨r, ⟨fun b hb => ?_, h.root, fun b => ?_, h.fresh, h.inj, h.bitmap,
      fun b hpath => h.nodes b fun t ht => hpath t (List.mem_cons_of_mem _ ht), h.leaves, h.state,
      h.defree, ?_⟩, ?_⟩
    · rcases List.mem_append.mp hb with hb | hb
      · exact h.renamed b hb
      · obtain ⟨g, hg, rfl⟩ := List.mem_map.mp hb
        rw [h.name_eq hup (hd.pred.row hg), (h.row hup hd.pred hg (hrowalloc g hg)).1,
          map_rename_row hd hnames hg]
    · rw [h.moved]
      constructor
      · rintro ⟨t, ht, htb⟩
        exact ⟨t, List.mem_cons_of_mem _ ht, htb⟩
      · rintro ⟨t, ht, heq, hne⟩
        rcases List.mem_cons.mp ht with rfl | ht
        · rw [← heq, hblock] at hne
          exact absurd hunify hne
        · exact ⟨t, ht, heq, hne⟩
    · rw [h.deunify]
      unfold replacedNodes
      rw [List.reverse_cons, List.filter_append, List.filter_cons_of_neg]
      · rw [List.filter_nil, List.append_nil]
      · rw [hblock, hunify]
        decide
    · show _ = (⟨r s.block, s.next⟩ :: renamePath r up : List PathLevel)
      rw [hblock, hfname]
  · rw [hstate] at hneed
    have hsame : ∀ b, b ≠ new → sb₂.bnodes b = sb₁.bnodes b := fun b hb => by
      rw [hbnodes, Function.update_of_ne hb]
    obtain ⟨hrenamed, hroot, hframe⟩ := h.repoint hup hd.pred halloc hfree hsame hparent
    obtain ⟨hbitmap₃, hstate₃, hdefree₃, hdeunify₃, hleaves₃, -⟩ := redirectParent_ok hparent
    have hnewfree : sb.bitmap new = false := by
      by_contra hset
      have hset' := (h.bitmap new).mpr (.inl (Bool.of_not_eq_false hset))
      rw [hfree] at hset'
      cases hset'
    have hself : Function.update r f.block new f.block = new := Function.update_self _ _ _
    have hother : ∀ b, b ≠ f.block → Function.update r f.block new b = r b :=
      fun b hb => Function.update_of_ne hb _ _
    have hfnew : f.block ≠ new := fun heq => by
      rw [heq, hnewfree] at hfalloc
      cases hfalloc
    -- a name of `r` is one of the new names
    have hnames : ∀ b, (∀ a, Function.update r f.block new a ≠ a →
        Function.update r f.block new a ≠ b) → (∀ a, r a ≠ a → r a ≠ b) ∧ b ≠ new := by
      intro b hb
      refine ⟨fun a hne => ?_, fun heq => ?_⟩
      · have haf : a ≠ f.block := fun heq => hne (heq ▸ hfname)
        have hname := hb a
        rw [hother a haf] at hname
        exact hname hne
      · refine hb f.block ?_ (hself.trans heq.symm)
        rw [hself]
        exact hfnew.symm
    have hfixed : ∀ b, b ∉ blocksBelow sb.bnodes root.entry (up.length + 1) →
        Function.update r f.block new b = b := by
      intro b hb
      have hbf : b ≠ f.block := fun heq =>
        hb (heq ▸ mem_blocksBelow_of_mem_level (Nat.lt_succ_self _) hf)
      rw [hother b hbf]
      exact h.name_eq hup fun hmem => hb (List.mem_append_left _ hmem)
    refine ⟨Function.update r f.block new, ⟨fun b hb => ?_, hroot, fun b => ?_, fun b hne => ?_,
      fun b b' hb hb' heq => ?_, fun b => ?_, fun b hpath hb => ?_, ?_, fun b hb => ?_, ?_, ?_⟩, ?_⟩
    · rcases List.mem_append.mp hb with hb | hb
      · exact hrenamed b hb
      · obtain ⟨g, hg, rfl⟩ := List.mem_map.mp hb
        rw [map_rename_row hd hfixed hg]
        obtain ⟨hrow, hne⟩ := h.row hup hd.pred hg (hrowalloc g hg)
        by_cases hgf : g.block = f.block
        · rw [hgf] at hrow ⊢
          rw [hself, hframe new fun t ht => h.name_ne (halloc _ (List.mem_append_left _
            (hup.step_mem t ht))) hfree, hbnodes, Function.update_self]
          exact hrow
        · have hgnew : g.block ≠ new := fun heq => by
            have hset := hrowalloc g hg
            rw [heq, hnewfree] at hset
            cases hset
          rw [hother _ hgf, h.name_eq hup (hd.pred.row hg), hframe _ hne, hsame _ hgnew]
          exact hrow
    · by_cases hbf : b = f.block
      · rw [hbf, hself]
        exact ⟨fun _ => ⟨s, List.mem_cons_self, hblock, hneed⟩, fun _ => hfnew.symm⟩
      · rw [hother b hbf, h.moved]
        constructor
        · rintro ⟨t, ht, htb⟩
          exact ⟨t, List.mem_cons_of_mem _ ht, htb⟩
        · rintro ⟨t, ht, heq, hne⟩
          rcases List.mem_cons.mp ht with rfl | ht
          · exact absurd (heq.symm.trans hblock) hbf
          · exact ⟨t, ht, heq, hne⟩
    · by_cases hbf : b = f.block
      · rw [hbf, hself]
        exact hnewfree
      · rw [hother b hbf] at hne ⊢
        exact h.fresh b hne
    · by_cases hbf : b = f.block
      · by_cases hbf' : b' = f.block
        · exact hbf.trans hbf'.symm
        · rw [hbf, hself, hother b' hbf'] at heq
          exact absurd heq.symm (h.name_ne hb' hfree)
      · by_cases hbf' : b' = f.block
        · rw [hbf', hself, hother b hbf] at heq
          exact absurd heq (h.name_ne hb hfree)
        · rw [hother b hbf, hother b' hbf'] at heq
          exact h.inj b b' hb hb' heq
    · rw [hbitmap₃, hbitmap]
      by_cases hbn : b = new
      · rw [hbn, Function.update_self]
        refine ⟨fun _ => .inr ⟨f.block, ?_, hself⟩, fun _ => rfl⟩
        rw [hself]
        exact hfnew.symm
      · rw [Function.update_of_ne hbn, h.bitmap]
        refine or_congr_right ⟨?_, ?_⟩
        · rintro ⟨a, hne, heq⟩
          have haf : a ≠ f.block := fun haf => hne (haf ▸ hfname)
          exact ⟨a, (hother a haf).symm ▸ hne, (hother a haf).trans heq⟩
        · rintro ⟨a, hne, heq⟩
          by_cases haf : a = f.block
          · rw [haf, hself] at heq
            exact absurd heq.symm hbn
          · rw [hother a haf] at hne heq
            exact ⟨a, hne, heq⟩
    · obtain ⟨hold, hbn⟩ := hnames b hb
      have hpath' : ∀ t ∈ up, t.block ≠ b := fun t ht => hpath t (List.mem_cons_of_mem _ ht)
      rw [hframe b, hsame b hbn]
      · exact h.nodes b hpath' hold
      · intro t ht heq
        by_cases hsame' : r t.block = t.block
        · exact hpath' t ht (hsame'.symm.trans heq)
        · exact hold _ hsame' heq
    · rw [hleaves₃, hleaves, h.leaves]
    · obtain ⟨hold, hbn⟩ := hnames b hb
      rw [hstate₃, hstate₂ b hbn, h.state b hold]
    · rw [hdefree₃, hdefree, h.defree, List.append_nil]
    · rw [hdeunify₃, hdeunify, h.deunify]
      unfold replacedNodes
      rw [List.reverse_cons, List.filter_append, List.map_append, List.filter_cons_of_pos,
        List.filter_nil, List.map_singleton, List.append_assoc, hblock]
      rw [hblock]
      exact decide_eq_true hneed
    · show _ = (⟨Function.update r f.block new s.block, s.next⟩ :: renamePath _ up :
        List PathLevel)
      rw [hblock, hself]
      refine congrArg (_ :: ·) (List.map_congr_left fun t ht => ?_)
      rw [hother _ (hupne t ht)]

/-- The loop of `cursor_redirect` over the bnodes of a path. -/
theorem redirectNodes_renamed {path path' : List PathLevel} {pre post : List IndexEntry}
    {e : IndexEntry} (hloc : Located sb.bnodes root.entry path pre e post)
    (hd : Distinct sb.bnodes root.entry path.length)
    (halloc : ∀ b ∈ blocksBelow sb.bnodes root.entry path.length, sb.bitmap b = true)
    (hok : redirectNodes sb root path = .ok (sb₁, root₁, path')) :
    ∃ r, PathRenamed r sb root path sb₁ root₁ ∧ path' = renamePath r path := by
  induction path generalizing pre post e sb₁ root₁ path' with
  | nil =>
      cases hok
      exact ⟨id, .refl sb root, rfl⟩
  | cons s up ih =>
      obtain ⟨⟨sb₂, root₂, up'⟩, hup, hok⟩ := bind_eq_ok.mp hok
      obtain ⟨⟨sb₃, root₃, new⟩, hnode, hok⟩ := bind_eq_ok.mp hok
      cases hok
      have hloc' := hloc
      obtain ⟨P, f, Q, -, -, hlocup, -⟩ := hloc'
      obtain ⟨r, hr, rfl⟩ := ih hlocup hd.pred (fun b hb => halloc b (List.mem_append_left _ hb)) hup
      exact hr.cons hloc hd halloc hnode

/-! ## The leaf -/

/-- What `cursor_redirect` does to a tree and a cursor: `r` are the names of the blocks after it. -/
structure RedirectedTree (r : Nat → Nat) (sb : BtreeSb L) (root : Root) (cursor : Cursor)
    (sb' : BtreeSb L) (root' : Root) (cursor' : Cursor) : Prop where
  -- the path is dirty, and `cursor_check` accepts it
  bnodesDirty : ∀ s ∈ cursor'.path, sb'.state s.block = .unify
  leafDirty : sb'.state cursor'.leaf ≠ .clean
  check : cursorCheck sb' root' cursor'.path cursor'.leaf = .ok ()
  -- the tree is the same under other names
  rootName : root' = ⟨r root.block, root.depth⟩
  cursorName : cursor' = ⟨r cursor.leaf, renamePath r cursor.path⟩
  bnodes : ∀ b ∈ treeBnodes sb root, sb'.bnodes (r b) = (sb.bnodes b).map (Entry.rename r)
  leaves : ∀ e ∈ treeLeaves sb root, sb'.leaves (r e.block) = sb.leaves e.block
  levels : ∀ n ≤ root.depth, level sb'.bnodes root'.entry n =
    (level sb.bnodes root.entry n).map (Entry.rename r)
  wellFormed : WellFormed sb' root'
  -- the blocks that have a new name, and their new names
  replaced : ∀ b, r b ≠ b ↔ (∃ s ∈ cursor.path, s.block = b ∧ sb.state b ≠ .unify) ∨
    b = cursor.leaf ∧ sb.state b = .clean
  fresh : ∀ b, r b ≠ b → sb.bitmap (r b) = false
  -- the old blocks are queued, each one once
  defree : sb'.defree = sb.defree ++
    if sb.state cursor.leaf = .clean then [⟨cursor.leaf, 1⟩] else []
  deunify : sb'.deunify = sb.deunify ++ replacedNodes sb cursor.path
  once : (replacedNodes sb cursor.path).Nodup
  -- nothing else changes
  frame : ∀ b, (∀ s ∈ cursor.path, s.block ≠ b) → b ≠ cursor.leaf → (∀ a, r a ≠ a → r a ≠ b) →
    sb'.bnodes b = sb.bnodes b ∧ sb'.leaves b = sb.leaves b ∧ sb'.state b = sb.state b

/-- The nodes of a path are distinct. -/
theorem Located.path_nodup {heap : Heap Nat Nat} {entry e : IndexEntry} {path : List PathLevel}
    {pre post : List IndexEntry} (h : Located heap entry path pre e post)
    (hd : Distinct heap entry path.length) : (path.map Step.block).Nodup := by
  induction path generalizing pre e post with
  | nil => exact List.nodup_nil
  | cons s up ih =>
      obtain ⟨P, f, Q, A, C, hup, hblock, -, -, -, -⟩ := h
      refine List.nodup_cons.mpr ⟨fun hmem => ?_, ih hup hd.pred⟩
      obtain ⟨t, ht, heq⟩ := List.mem_map.mp hmem
      refine (hup.fresh hd.pred).1 ?_
      rw [← hblock, ← heq]
      exact hup.step_mem t ht

theorem replacedNodes_nodup {path : List PathLevel} (h : (path.map Step.block).Nodup) :
    (replacedNodes sb path).Nodup := by
  unfold replacedNodes
  have hfilter : (((path.reverse.filter fun s => sb.state s.block ≠ .unify).map
      Step.block)).Nodup := by
    refine List.Nodup.sublist (List.Sublist.map _ List.filter_sublist) ?_
    rw [List.map_reverse]
    exact List.nodup_reverse.mpr h
  have hmap := hfilter.map (f := fun b => (⟨b, 1⟩ : BlockSegment)) fun a b heq =>
    congrArg BlockSegment.block heq
  rwa [List.map_map] at hmap

/-- `cursor_redirect` of a cursor from `btree_probe`, unless there is no space. -/
theorem cursorRedirect_renames {cursor : Cursor} {key : Nat} (hwf : WellFormed sb root)
    (hclean : sb.FreeClean) (hprobe : btreeProbe sb root key = .ok cursor)
    (hspace : cursorRedirect sb root cursor ≠ .error .enospc) :
    ∃ sb' root' cursor' r, cursorRedirect sb root cursor = .ok (sb', root', cursor') ∧
      RedirectedTree r sb root cursor sb' root' cursor' := by
  obtain ⟨_, pre, e, post, hprobe', hloc, hleaf, hlength, -, -⟩ := btreeProbe_spec hwf key
  rw [hprobe] at hprobe'
  cases hprobe'
  obtain ⟨block, path⟩ := cursor
  dsimp only at hloc hleaf hlength ⊢
  subst hleaf
  have hd : Distinct sb.bnodes root.entry path.length := hlength ▸ hwf.distinct
  have halloc : ∀ b ∈ blocksBelow sb.bnodes root.entry (path.length + 1), sb.bitmap b = true := by
    rw [hlength]
    exact hwf.allocated
  obtain ⟨⟨sb', root', cursor'⟩, hok, recs, hredirected⟩ :=
    (cursorRedirect_spec hwf hloc.trail hlength).exists_ok fun err herr => herr ▸ hspace
  have hrun := hok
  obtain ⟨⟨sb₁, root₁, path₁⟩, hnodes, hrun⟩ := bind_eq_ok.mp hrun
  obtain ⟨⟨sb₂, root₂, leaf⟩, hleafrun, hrun⟩ := bind_eq_ok.mp hrun
  obtain ⟨_, hcheck, hrun⟩ := bind_eq_ok.mp hrun
  cases hrun
  obtain ⟨r, hr, rfl⟩ := redirectNodes_renamed hloc hd
    (fun b hb => halloc b (List.mem_append_left _ hb)) hnodes
  have hrow : ∀ g ∈ treeLeaves sb root, g.block ∉ blocksBelow sb.bnodes root.entry path.length := by
    intro g hg
    rw [treeLeaves, ← hlength] at hg
    exact hd.row hg
  have he : e ∈ treeLeaves sb root := by
    rw [treeLeaves, ← hlength, hloc.level]
    exact List.mem_append_right _ List.mem_cons_self
  have healloc : sb.bitmap e.block = true :=
    halloc _ (mem_blocksBelow_of_mem_level (Nat.lt_succ_self _) (hloc.level ▸
      List.mem_append_right _ List.mem_cons_self))
  have hename : r e.block = e.block := hr.name_eq hloc (hrow e he)
  have hestate : sb₁.state e.block = sb.state e.block := hr.state _ (hr.not_name healloc)
  have hpathne : ∀ s ∈ path, s.block ≠ e.block := fun s hs heq =>
    hrow e he (heq ▸ hloc.step_mem s hs)
  have honce : (replacedNodes sb path).Nodup := replacedNodes_nodup (Located.path_nodup hloc hd)
  refine ⟨sb', root', ⟨leaf, renamePath r path⟩, ?_⟩
  rcases redirectLeaf_ok hleafrun with ⟨hdirty, rfl, rfl, rfl⟩ |
    ⟨hneed, sb₂, ⟨hfree, hbitmap, hstate₂, hdefree, hdeunify⟩, hbnodes, hleaves, hparent⟩
  · rw [hestate] at hdirty
    refine ⟨r, hok, hredirected.unify hclean, hredirected.leafDirty, hcheck, hr.root, ?_,
      fun b hb => ?_, fun g hg => ?_, fun n hn => ?_, hredirected.wellFormed, fun b => ?_, hr.fresh,
      ?_, hr.deunify, honce, fun b hpath _ hb => ⟨hr.nodes b hpath hb, congrFun hr.leaves b,
      hr.state b hb⟩⟩
    · rw [hename]
    · exact hr.renamed b (hlength ▸ hb)
    · rw [hr.name_eq hloc (hrow g hg), hr.leaves]
    · have hlevel := hr.renamed.level (hlength ▸ hn)
      rw [hr.root]
      exact hlevel
    · rw [hr.moved]
      refine (or_iff_left ?_).symm
      rintro ⟨rfl, hstate⟩
      exact hdirty hstate
    · rw [hr.defree, if_neg hdirty, List.append_nil]
  · rw [hestate] at hneed
    obtain ⟨hrenamed, hroot, hframe⟩ := hr.repoint hloc hd halloc hfree
      (fun b _ => congrFun hbnodes b) hparent
    obtain ⟨hbitmap₃, hstate₃, hdefree₃, hdeunify₃, hleaves₃, -⟩ := redirectParent_ok hparent
    have hnewfree : sb.bitmap leaf = false := by
      by_contra hset
      have hset' := (hr.bitmap leaf).mpr (.inl (Bool.of_not_eq_false hset))
      rw [hfree] at hset'
      cases hset'
    have hself : Function.update r e.block leaf e.block = leaf := Function.update_self _ _ _
    have hother : ∀ b, b ≠ e.block → Function.update r e.block leaf b = r b :=
      fun b hb => Function.update_of_ne hb _ _
    have henew : leaf ≠ e.block := fun heq => by
      rw [← heq, hnewfree] at healloc
      cases healloc
    refine ⟨Function.update r e.block leaf, hok, hredirected.unify hclean, hredirected.leafDirty,
      hcheck, hroot, ?_, fun b hb => ?_, fun g hg => ?_, fun n hn => ?_, hredirected.wellFormed,
      fun b => ?_, fun b hne => ?_, ?_, ?_, honce, fun b hpath hbleaf hb => ?_⟩
    · rw [hself]
      refine congrArg (Cursor.mk leaf) (List.map_congr_left fun s hs => ?_)
      rw [hother _ (hpathne s hs)]
    · exact hrenamed b (hlength ▸ hb)
    · rw [hleaves₃, hleaves, hr.leaves]
      by_cases hge : g.block = e.block
      · rw [hge, hself, Function.update_self]
      · have hgalloc : sb.bitmap g.block = true := by
          refine halloc _ (mem_blocksBelow_of_mem_level (Nat.lt_succ_self _) ?_)
          rwa [treeLeaves, ← hlength] at hg
        have hgname : r g.block = g.block := hr.name_eq hloc (hrow g hg)
        have hgnew : g.block ≠ leaf := fun heq => by
          rw [heq, hnewfree] at hgalloc
          cases hgalloc
        rw [hother _ hge, hgname, Function.update_of_ne hgnew]
    · have hlevel := hrenamed.level (hlength ▸ hn)
      rw [hroot]
      exact hlevel
    · by_cases hbe : b = e.block
      · rw [hbe, hself]
        exact ⟨fun _ => .inr ⟨rfl, hneed⟩, fun _ => henew⟩
      · rw [hother b hbe, hr.moved]
        exact (or_iff_left fun hand => hbe hand.1).symm
    · by_cases hbe : b = e.block
      · rw [hbe, hself]
        exact hnewfree
      · rw [hother b hbe] at hne ⊢
        exact hr.fresh b hne
    · rw [hdefree₃, hdefree, hr.defree, if_pos hneed]
    · rw [hdeunify₃, hdeunify, hr.deunify, List.append_nil]
    · have hbnew : b ≠ leaf := fun heq =>
        hb e.block (by rw [hself]; exact henew) (hself.trans heq.symm)
      have hnames : ∀ a, r a ≠ a → r a ≠ b := by
        intro a hne
        have hae : a ≠ e.block := fun heq => hne (heq ▸ hename)
        have hname := hb a
        rw [hother a hae] at hname
        exact hname hne
      refine ⟨?_, ?_, ?_⟩
      · rw [hframe b, hbnodes]
        · exact hr.nodes b hpath hnames
        · intro t ht heq
          by_cases hsame : r t.block = t.block
          · exact hpath t ht (hsame.symm.trans heq)
          · exact hnames _ hsame heq
      · rw [hleaves₃, hleaves, Function.update_of_ne hbnew, hr.leaves]
      · rw [hstate₃, hstate₂ b hbnew, hr.state b hnames]

end

/-- A volume with a root bnode of an old cycle in block 1 over two clean leaves. -/
def oldRootSb : BtreeSb Unit where
  entriesPerNode := 4
  bnodes := fun b => if b = 1 then [⟨0, 2⟩, ⟨5, 3⟩] else []
  leaves := fun _ => ()
  bitmap := fun b => decide (b < 4)
  freeblocks := 10
  answers := [4, 5]
  bfreed := []
  state := fun b => if b = 1 then .delta else .clean
  defree := []
  deunify := []
  log := []

theorem oldRootSb_wellFormed : WellFormed oldRootSb ⟨1, 1⟩ where
  depth_pos := by decide
  nodes := by
    intro m hm e he
    obtain rfl : m = 0 := Nat.lt_one_iff.mp hm
    rw [List.mem_singleton.mp he]
    exact ⟨rfl, by decide⟩
  sorted := by
    unfold Sorted
    decide
  bounded := by decide
  distinct := by
    unfold Distinct
    decide
  allocated := by decide

theorem oldRootSb_freeClean : oldRootSb.FreeClean := by
  intro b hb
  have hge : ¬ b < 4 := of_decide_eq_false hb
  exact if_neg fun heq => hge (by omega)

/-- The root and the second leaf are replaced. -/
theorem cursorRedirect_renames_oldRoot :
    ∃ sb' root' cursor' r,
      cursorRedirect oldRootSb ⟨1, 1⟩ ⟨3, [⟨1, 2⟩]⟩ = .ok (sb', root', cursor') ∧
        RedirectedTree r oldRootSb ⟨1, 1⟩ ⟨3, [⟨1, 2⟩]⟩ sb' root' cursor' := by
  have hok : (cursorRedirect oldRootSb ⟨1, 1⟩ ⟨3, [⟨1, 2⟩]⟩).isOk = true := by decide
  have hprobe : btreeProbe oldRootSb ⟨1, 1⟩ 7 = .ok ⟨3, [⟨1, 2⟩]⟩ := rfl
  refine cursorRedirect_renames oldRootSb_wellFormed oldRootSb_freeClean hprobe fun herr => ?_
  rw [herr] at hok
  exact Bool.noConfusion hok

end Tux3
