import Fz.Inventory.SharedOrder

/-!
# Updates of shared inventories

An update gives a tree that is balanced again, with its cached heights and lengths right, and with
the entries of the old one but for the key in question.  Rotations keep the in-order sequence, and
the height of a subtree changes by one at most, so the tree above it is at most one level out of
balance.
-/

namespace Fz.Inventory

open Fz.Base Fz.Base.Entries Std

namespace SharedOrder

variable {K V : Type}

/-! ## Invariants -/

/-- The in-order sequence. -/
def toList : SharedOrder K V → List (K × V)
  | nil => []
  | cell _ k v left right _ _ => left.toList ++ (k, v) :: right.toList

/-- The caches are right, and the tree is balanced. -/
def Valid : SharedOrder K V → Prop
  | nil => True
  | cell _ _ _ left right height len =>
    left.Valid ∧ right.Valid ∧ height = 1 + max left.height right.height ∧
      len = 1 + left.len + right.len ∧ left.height ≤ right.height + 1 ∧
      right.height ≤ left.height + 1

/-- The nodes are the allocated ones at their addresses. -/
def StoredIn (cells : List (SharedOrder K V)) : SharedOrder K V → Prop
  | nil => True
  | cell addr k v left right height len =>
    cells[addr]? = some (cell addr k v left right height len) ∧ left.StoredIn cells ∧
      right.StoredIn cells

@[simp] theorem height_nil : (nil : SharedOrder K V).height = 0 := rfl

@[simp] theorem height_cell {addr h n : Nat} {k : K} {v : V} {left right : SharedOrder K V} :
    (cell addr k v left right h n).height = h := rfl

variable {cells cells' cells'' : List (SharedOrder K V)} {t left right : SharedOrder K V}

theorem StoredIn.mono (h : t.StoredIn cells) (hext : cells <+: cells') : t.StoredIn cells' := by
  induction t with
  | nil => trivial
  | cell addr k v left right height len ihl ihr =>
    obtain ⟨haddr, hl, hr⟩ := h
    obtain ⟨more, rfl⟩ := hext
    refine ⟨?_, ihl hl, ihr hr⟩
    rw [List.getElem?_append_left (List.getElem?_eq_some_iff.mp haddr).1, haddr]

theorem Valid.len_eq (h : t.Valid) : t.len = t.toList.length := by
  induction t with
  | nil => rfl
  | cell addr k v left right h n ihl ihr =>
    obtain ⟨hl, hr, -, hlen, -⟩ := h
    rw [len, hlen, ihl hl, ihr hr, toList, List.length_append, List.length_cons]
    omega

/-! ## Balancing -/

/-- A valid tree with given entries, built in memory that was `cells` before. -/
structure Built (cells : List (SharedOrder K V)) (entries : List (K × V)) (t : SharedOrder K V)
    (cells' : List (SharedOrder K V)) : Prop where
  grows : cells <+: cells'
  valid : t.Valid
  stored : t.StoredIn cells'
  entries : t.toList = entries

theorem Built.refl (hvalid : t.Valid) (hstored : t.StoredIn cells) :
    Built cells t.toList t cells := ⟨List.prefix_rfl, hvalid, hstored, rfl⟩

theorem wp_node {k : K} {v : V} (hl : left.Valid) (hr : right.Valid)
    (hls : left.StoredIn cells) (hrs : right.StoredIn cells)
    (hlr : left.height ≤ right.height + 1) (hrl : right.height ≤ left.height + 1) :
    wp (node k v left right) (fun t cells' =>
      Built cells (left.toList ++ (k, v) :: right.toList) t cells' ∧
        t.height = 1 + max left.height right.height) (fun _ => False) cells := by
  rw [node, wp_bind, wp_get]
  dsimp only
  rw [wp_bind, wp_set, wp_pure]
  have hgrows : cells <+: cells ++ [cell cells.length k v left right
    (1 + max left.height right.height) (1 + left.len + right.len)] := List.prefix_append _ _
  refine ⟨⟨hgrows, ⟨hl, hr, rfl, rfl, hlr, hrl⟩, ⟨?_, hls.mono hgrows, hrs.mono hgrows⟩, rfl⟩, rfl⟩
  rw [List.getElem?_append_right le_rfl, Nat.sub_self]
  rfl

theorem wp_rotate {k₁ k₂ k₃ : K} {v₁ v₂ v₃ : V} {a b c d : SharedOrder K V}
    (ha : a.Valid) (hb : b.Valid) (hc : c.Valid) (hd : d.Valid) (has : a.StoredIn cells)
    (hbs : b.StoredIn cells) (hcs : c.StoredIn cells) (hds : d.StoredIn cells)
    (hab : a.height ≤ b.height + 1) (hba : b.height ≤ a.height + 1)
    (hcd : c.height ≤ d.height + 1) (hdc : d.height ≤ c.height + 1)
    (hlr : max a.height b.height ≤ max c.height d.height + 1)
    (hrl : max c.height d.height ≤ max a.height b.height + 1) :
    wp (do
        let low ← node k₁ v₁ a b
        let high ← node k₃ v₃ c d
        node k₂ v₂ low high) (fun t cells' =>
      Built cells (a.toList ++ (k₁, v₁) :: (b.toList ++ (k₂, v₂) ::
          (c.toList ++ (k₃, v₃) :: d.toList))) t cells' ∧
        t.height = 2 + max (max a.height b.height) (max c.height d.height))
      (fun _ => False) cells := by
  rw [wp_bind]
  refine (wp_node ha hb has hbs hab hba).imp ?_
  rintro low cells₁ ⟨hlow, hlowh⟩
  rw [wp_bind]
  refine (wp_node hc hd (hcs.mono hlow.grows) (hds.mono hlow.grows) hcd hdc).imp ?_
  rintro high cells₂ ⟨hhigh, hhighh⟩
  refine (wp_node hlow.valid hhigh.valid (hlow.stored.mono hhigh.grows) hhigh.stored
    (by omega) (by omega)).imp ?_
  rintro t cells₃ ⟨ht, hth⟩
  refine ⟨⟨(hlow.grows.trans hhigh.grows).trans ht.grows, ht.valid, ht.stored, ?_⟩, by omega⟩
  rw [ht.entries, hlow.entries, hhigh.entries]
  simp only [List.append_assoc, List.cons_append]

/-- Balancing makes up for two levels of difference. -/
theorem wp_balanced {k : K} {v : V} (hl : left.Valid) (hr : right.Valid)
    (hls : left.StoredIn cells) (hrs : right.StoredIn cells)
    (hlr : left.height ≤ right.height + 2) (hrl : right.height ≤ left.height + 2) :
    wp (balanced k v left right) (fun t cells' =>
      Built cells (left.toList ++ (k, v) :: right.toList) t cells' ∧
        (left.height ≤ right.height + 1 → right.height ≤ left.height + 1 →
          t.height = 1 + max left.height right.height) ∧
        max left.height right.height ≤ t.height ∧
        t.height ≤ 1 + max left.height right.height) (fun _ => False) cells := by
  unfold balanced
  split
  · rename_i hheavy
    split
    · rw [height_nil] at hheavy
      omega
    · rename_i child ck cv cl cr ch cn
      obtain ⟨hcl, hcr, hch, -, hclr, hcrl⟩ := hl
      obtain ⟨-, hcls, hcrs⟩ := hls
      simp only [height_cell, hch] at hheavy hlr hrl ⊢
      split
      · rename_i houter
        rw [wp_bind]
        refine (wp_node hcr hr hcrs hrs (by omega) (by omega)).imp ?_
        rintro lower cells₁ ⟨hlower, hlh⟩
        refine (wp_node hcl hlower.valid (hcls.mono hlower.grows) hlower.stored (by omega)
          (by omega)).imp ?_
        rintro t cells₂ ⟨ht, hth⟩
        refine ⟨⟨hlower.grows.trans ht.grows, ht.valid, ht.stored, ?_⟩, by omega, by omega,
          by omega⟩
        rw [ht.entries, hlower.entries, toList, List.append_assoc, List.cons_append]
      · rename_i hinner
        split
        · rw [height_nil] at hinner
          omega
        · rename_i pivot pk pv pl pr ph pn
          obtain ⟨hpl, hpr, hph, -, hplr, hprl⟩ := hcr
          obtain ⟨-, hpls, hprs⟩ := hcrs
          simp only [height_cell, hph] at hinner hclr hcrl hheavy hlr hrl ⊢
          refine (wp_rotate hcl hpl hpr hr hcls hpls hprs hrs (by omega) (by omega) (by omega)
            (by omega) (by omega) (by omega)).imp ?_
          rintro t cells₁ ⟨ht, hth⟩
          refine ⟨⟨ht.grows, ht.valid, ht.stored, ?_⟩, by omega, by omega, by omega⟩
          rw [ht.entries]
          simp only [toList, List.append_assoc, List.cons_append]
  split
  · rename_i hheavy
    split
    · rw [height_nil] at hheavy
      omega
    · rename_i child ck cv cl cr ch cn
      obtain ⟨hcl, hcr, hch, -, hclr, hcrl⟩ := hr
      obtain ⟨-, hcls, hcrs⟩ := hrs
      simp only [height_cell, hch] at hheavy hlr hrl ⊢
      split
      · rename_i houter
        rw [wp_bind]
        refine (wp_node hl hcl hls hcls (by omega) (by omega)).imp ?_
        rintro lower cells₁ ⟨hlower, hlh⟩
        refine (wp_node hlower.valid hcr hlower.stored (hcrs.mono hlower.grows) (by omega)
          (by omega)).imp ?_
        rintro t cells₂ ⟨ht, hth⟩
        refine ⟨⟨hlower.grows.trans ht.grows, ht.valid, ht.stored, ?_⟩, by omega, by omega,
          by omega⟩
        rw [ht.entries, hlower.entries, toList, List.append_assoc, List.cons_append]
      · rename_i hinner
        split
        · rw [height_nil] at hinner
          omega
        · rename_i pivot pk pv pl pr ph pn
          obtain ⟨hpl, hpr, hph, -, hplr, hprl⟩ := hcl
          obtain ⟨-, hpls, hprs⟩ := hcls
          simp only [height_cell, hph] at hinner hclr hcrl hheavy hlr hrl ⊢
          refine (wp_rotate hl hpl hpr hcr hls hpls hprs hcrs (by omega) (by omega) (by omega)
            (by omega) (by omega) (by omega)).imp ?_
          rintro t cells₁ ⟨ht, hth⟩
          refine ⟨⟨ht.grows, ht.valid, ht.stored, ?_⟩, by omega, by omega, by omega⟩
          rw [ht.entries]
          simp only [toList, List.append_assoc, List.cons_append]
  · refine (wp_node hl hr hls hrs (by omega) (by omega)).imp ?_
    rintro t cells₁ ⟨ht, hth⟩
    exact ⟨ht, fun _ _ => hth, by omega, by omega⟩

/-! ## One key changed -/

variable {ord : K → K → Ordering} {key : K}

theorem increasing_cell {addr h n : Nat} {k : K} {v : V}
    (hinc : Increasing ord (cell addr k v left right h n).toList) :
    Increasing ord left.toList ∧ Increasing ord right.toList ∧
      (∀ d ∈ left.toList, ord d.1 k = .lt) ∧ ∀ d ∈ right.toList, ord k d.1 = .lt := by
  obtain ⟨hleft, hroot, hcross⟩ := List.pairwise_append.mp hinc
  obtain ⟨hafter, hright⟩ := List.pairwise_cons.mp hroot
  exact ⟨hleft, hright, fun d hd => hcross d hd _ (.head _), hafter⟩

/-- An update at a key: the entries around it stay, and `put` takes the place of its own. -/
def Changed (ord : K → K → Ordering) (key : K) (t : SharedOrder K V)
    (cells : List (SharedOrder K V)) (own put : List (K × V)) (t' : SharedOrder K V)
    (cells' : List (SharedOrder K V)) : Prop :=
  ∃ before after, t.toList = before ++ own ++ after ∧ Around ord key before own after ∧
    Built cells (before ++ put ++ after) t' cells'

section Changed

variable {addr h n : Nat} {k : K} {v : V} {own put : List (K × V)} {t' : SharedOrder K V}

theorem Changed.root {key : K} (hinc : Increasing ord (cell addr key v left right h n).toList)
    (ht : Built cells (left.toList ++ put ++ right.toList) t' cells') :
    Changed ord key (cell addr key v left right h n) cells [(key, v)] put t' cells' := by
  obtain ⟨-, -, hbefore, hafter⟩ := increasing_cell hinc
  refine ⟨left.toList, right.toList, ?_, ⟨hbefore, .inr ⟨v, rfl⟩, hafter⟩, ht⟩
  rw [toList, List.append_assoc]
  rfl

theorem Changed.grows (h : Changed ord key t cells own put t' cells') : cells <+: cells' := by
  obtain ⟨_, _, _, _, hbuilt⟩ := h
  exact hbuilt.grows

theorem Changed.valid (h : Changed ord key t cells own put t' cells') :
    t'.Valid ∧ t'.StoredIn cells' := by
  obtain ⟨_, _, _, _, hbuilt⟩ := h
  exact ⟨hbuilt.valid, hbuilt.stored⟩

theorem Changed.toList_eq (h : Changed ord key t cells own own t' cells') :
    t'.toList = t.toList := by
  obtain ⟨_, _, hentries, _, hbuilt⟩ := h
  rw [hbuilt.entries, hentries]

variable [TransCmp ord]

theorem Changed.onLeft (hinc : Increasing ord (cell addr k v left right h n).toList)
    (hlt : ord key k = .lt) {left' : SharedOrder K V}
    (hleft : Changed ord key left cells own put left' cells')
    (ht : Built cells' (left'.toList ++ (k, v) :: right.toList) t' cells'') :
    Changed ord key (cell addr k v left right h n) cells own put t' cells'' := by
  obtain ⟨-, -, -, hafter⟩ := increasing_cell hinc
  obtain ⟨before, after, hentries, haround, hbuilt⟩ := hleft
  refine ⟨before, after ++ (k, v) :: right.toList, ?_, haround.of_left hlt hafter,
    ⟨hbuilt.grows.trans ht.grows, ht.valid, ht.stored, ?_⟩⟩
  · rw [toList, hentries, List.append_assoc _ after]
  · rw [ht.entries, hbuilt.entries, List.append_assoc _ after]

theorem Changed.onRight (hinc : Increasing ord (cell addr k v left right h n).toList)
    (hgt : ord k key = .lt) {right' : SharedOrder K V}
    (hright : Changed ord key right cells own put right' cells')
    (ht : Built cells' (left.toList ++ (k, v) :: right'.toList) t' cells'') :
    Changed ord key (cell addr k v left right h n) cells own put t' cells'' := by
  obtain ⟨-, -, hbefore, -⟩ := increasing_cell hinc
  obtain ⟨before, after, hentries, haround, hbuilt⟩ := hright
  refine ⟨left.toList ++ (k, v) :: before, after, ?_, haround.of_right hgt hbefore,
    ⟨hbuilt.grows.trans ht.grows, ht.valid, ht.stored, ?_⟩⟩
  · rw [toList, hentries]
    simp only [List.append_assoc, List.cons_append]
  · rw [ht.entries, hbuilt.entries]
    simp only [List.append_assoc, List.cons_append]

theorem Changed.same (ht : (cell addr k v left right h n).Valid)
    (hstored : (cell addr k v left right h n).StoredIn cells) (hgrows : cells <+: cells') :
    Built cells' (left.toList ++ (k, v) :: right.toList) (cell addr k v left right h n) cells' :=
  ⟨List.prefix_rfl, ht, hstored.mono hgrows, rfl⟩

end Changed

variable [TransCmp ord] [LawfulEqCmp ord]

theorem wp_insert [DecidableEq V] {value : V} (hvalid : t.Valid) (hstored : t.StoredIn cells)
    (hinc : Increasing ord t.toList) : wp (t.insert key value ord) (fun out cells' => ∃ own,
      Changed ord key t cells own [(key, value)] out.2 cells' ∧
        (out.1 = false ↔ own = [(key, value)]) ∧
        t.height ≤ out.2.height ∧ out.2.height ≤ t.height + 1) (fun _ => False) cells := by
  induction t with
  | nil =>
    rw [insert, wp_bind]
    refine (wp_node (show (nil : SharedOrder K V).Valid from trivial)
      (show (nil : SharedOrder K V).Valid from trivial) trivial trivial (by simp) (by simp)).imp ?_
    rintro t cells' ⟨ht, hth⟩
    refine ⟨[], ⟨[], [], rfl, ⟨nofun, .inl rfl, nofun⟩, ht⟩, ⟨nofun, nofun⟩, ?_⟩
    simp [hth]
  | cell addr k v left right h n ihl ihr =>
    obtain ⟨hl, hr, hh, hn, hlr, hrl⟩ := id hvalid
    obtain ⟨haddr, hls, hrs⟩ := id hstored
    obtain ⟨hincl, hincr, -, -⟩ := increasing_cell hinc
    rw [insert]
    split
    · rename_i heq
      obtain rfl := LawfulEqCmp.compare_eq_iff_eq.mp heq
      split
      · rename_i hv
        subst hv
        refine ⟨_, .root hinc ?_, by simp, le_rfl, Nat.le_succ _⟩
        rw [List.append_assoc]
        exact .refl hvalid hstored
      · rename_i hv
        rw [wp_bind]
        refine (wp_node hl hr hls hrs hlr hrl).imp ?_
        rintro t cells' ⟨ht, hth⟩
        refine ⟨_, .root hinc ?_, by simpa using hv, ?_⟩
        · rw [List.append_assoc]
          exact ht
        · rw [height_cell, hth, hh]
          exact ⟨le_rfl, Nat.le_succ _⟩
    · rename_i hlt
      rw [wp_bind]
      refine (ihl hl hls hincl).imp ?_
      rintro ⟨changed, left'⟩ cells₁ ⟨own, hleft, hchanged, hlow, hhigh⟩
      dsimp only at hleft hchanged hlow hhigh ⊢
      split
      · rename_i hsame
        have hown := hchanged.mp (by simpa using hsame)
        subst hown
        have hbuilt := Changed.same hvalid hstored hleft.grows
        rw [← hleft.toList_eq] at hbuilt
        exact ⟨_, hleft.onLeft hinc hlt hbuilt, by simp, le_rfl, Nat.le_succ _⟩
      · rename_i hsame
        rw [wp_bind]
        refine (wp_balanced hleft.valid.1 hr hleft.valid.2 (hrs.mono hleft.grows) (by omega)
          (by omega)).imp ?_
        rintro t cells₂ ⟨ht, hth, hth', hth''⟩
        refine ⟨own, hleft.onLeft hinc hlt ht, ?_, ?_, ?_⟩
        · rw [← hchanged]
          simpa using hsame
        · simp only [height_cell]
          omega
        · simp only [height_cell]
          omega
    · rename_i hgt
      have hgt' := lt_of_gt hgt
      rw [wp_bind]
      refine (ihr hr hrs hincr).imp ?_
      rintro ⟨changed, right'⟩ cells₁ ⟨own, hright, hchanged, hlow, hhigh⟩
      dsimp only at hright hchanged hlow hhigh ⊢
      split
      · rename_i hsame
        have hown := hchanged.mp (by simpa using hsame)
        subst hown
        have hbuilt := Changed.same hvalid hstored hright.grows
        rw [← hright.toList_eq] at hbuilt
        exact ⟨_, hright.onRight hinc hgt' hbuilt, by simp, le_rfl, Nat.le_succ _⟩
      · rename_i hsame
        rw [wp_bind]
        refine (wp_balanced hl hright.valid.1 (hls.mono hright.grows) hright.valid.2 (by omega)
          (by omega)).imp ?_
        rintro t cells₂ ⟨ht, hth, hth', hth''⟩
        refine ⟨own, hright.onRight hinc hgt' ht, ?_, ?_, ?_⟩
        · rw [← hchanged]
          simpa using hsame
        · simp only [height_cell]
          omega
        · simp only [height_cell]
          omega

theorem wp_removeFirst (hne : t.isEmpty = false) (hvalid : t.Valid) (hstored : t.StoredIn cells) :
    wp t.removeFirst (fun out cells' => ∃ rest, t.toList = out.1 :: rest ∧
      Built cells rest out.2 cells' ∧ out.2.height ≤ t.height ∧ t.height ≤ out.2.height + 1)
      (fun _ => False) cells := by
  induction t with
  | nil => exact nomatch hne
  | cell addr k v left right h n ihl _ =>
    obtain ⟨hl, hr, hh, hn, hlr, hrl⟩ := hvalid
    obtain ⟨haddr, hls, hrs⟩ := hstored
    rw [removeFirst]
    split
    · rename_i hempty
      cases left with
      | cell => exact nomatch hempty
      | nil =>
        rw [height_nil] at hh
        refine ⟨right.toList, rfl, .refl hr hrs, ?_, ?_⟩
        · rw [height_cell, hh]
          exact (Nat.le_max_right _ _).trans (Nat.le_add_left _ _)
        · rw [height_cell, hh, Nat.zero_max]
          exact (Nat.add_comm _ _).le
    · rename_i hleft
      rw [wp_bind]
      refine (ihl (by simpa using hleft) hl hls).imp ?_
      rintro ⟨first, left'⟩ cells₁ ⟨rest, hentries, hbuilt, hlow, hhigh⟩
      dsimp only at hentries hbuilt hlow hhigh
      rw [wp_bind]
      refine (wp_balanced hbuilt.valid hr hbuilt.stored (hrs.mono hbuilt.grows) (by omega)
        (by omega)).imp ?_
      rintro t cells₂ ⟨ht, hth, hth', hth''⟩
      refine ⟨rest ++ (k, v) :: right.toList, ?_, ⟨hbuilt.grows.trans ht.grows, ht.valid, ht.stored,
        ?_⟩, ?_, ?_⟩
      · rw [toList, hentries]
        rfl
      · rw [ht.entries, hbuilt.entries]
      · simp only [height_cell]
        omega
      · simp only [height_cell]
        omega

theorem wp_remove (hvalid : t.Valid) (hstored : t.StoredIn cells) (hinc : Increasing ord t.toList) :
    wp (t.remove key ord) (fun out cells' => ∃ own, Changed ord key t cells own [] out.2 cells' ∧
      out.1 = own.head?.map Prod.snd ∧ out.2.height ≤ t.height ∧ t.height ≤ out.2.height + 1)
      (fun _ => False) cells := by
  induction t with
  | nil =>
    exact ⟨[], ⟨[], [], rfl, ⟨nofun, .inl rfl, nofun⟩, .refl (t := nil) trivial trivial⟩, rfl,
      le_rfl, Nat.zero_le _⟩
  | cell addr k v left right h n ihl ihr =>
    obtain ⟨hl, hr, hh, hn, hlr, hrl⟩ := id hvalid
    obtain ⟨haddr, hls, hrs⟩ := id hstored
    obtain ⟨hincl, hincr, -, -⟩ := increasing_cell hinc
    rw [remove]
    split
    · rename_i hlt
      rw [wp_bind]
      refine (ihl hl hls hincl).imp ?_
      rintro ⟨removed, left'⟩ cells₁ ⟨own, hleft, hremoved, hlow, hhigh⟩
      dsimp only at hleft hremoved hlow hhigh
      cases removed with
      | none =>
        obtain rfl : own = [] := by simpa using hremoved.symm
        have hbuilt := Changed.same hvalid hstored hleft.grows
        rw [← hleft.toList_eq] at hbuilt
        exact ⟨_, hleft.onLeft hinc hlt hbuilt, rfl, le_rfl, Nat.le_succ _⟩
      | some removed =>
        dsimp only
        rw [wp_bind]
        refine (wp_balanced hleft.valid.1 hr hleft.valid.2 (hrs.mono hleft.grows) (by omega)
          (by omega)).imp ?_
        rintro t cells₂ ⟨ht, hth, hth', hth''⟩
        refine ⟨own, hleft.onLeft hinc hlt ht, hremoved, ?_, ?_⟩
        · simp only [height_cell]
          omega
        · simp only [height_cell]
          omega
    · rename_i hgt
      have hgt' := lt_of_gt hgt
      rw [wp_bind]
      refine (ihr hr hrs hincr).imp ?_
      rintro ⟨removed, right'⟩ cells₁ ⟨own, hright, hremoved, hlow, hhigh⟩
      dsimp only at hright hremoved hlow hhigh
      cases removed with
      | none =>
        obtain rfl : own = [] := by simpa using hremoved.symm
        have hbuilt := Changed.same hvalid hstored hright.grows
        rw [← hright.toList_eq] at hbuilt
        exact ⟨_, hright.onRight hinc hgt' hbuilt, rfl, le_rfl, Nat.le_succ _⟩
      | some removed =>
        dsimp only
        rw [wp_bind]
        refine (wp_balanced hl hright.valid.1 (hls.mono hright.grows) hright.valid.2 (by omega)
          (by omega)).imp ?_
        rintro t cells₂ ⟨ht, hth, hth', hth''⟩
        refine ⟨own, hright.onRight hinc hgt' ht, hremoved, ?_, ?_⟩
        · simp only [height_cell]
          omega
        · simp only [height_cell]
          omega
    · rename_i heq
      obtain rfl := LawfulEqCmp.compare_eq_iff_eq.mp heq
      split
      · rename_i hempty
        cases left with
        | cell => exact nomatch hempty
        | nil =>
          rw [height_nil] at hh
          refine ⟨_, .root hinc (.refl hr hrs), rfl, ?_, ?_⟩
          · rw [height_cell, hh]
            exact (Nat.le_max_right _ _).trans (Nat.le_add_left _ _)
          · rw [height_cell, hh, Nat.zero_max]
            exact (Nat.add_comm _ _).le
      split
      · rename_i hempty
        cases right with
        | cell => exact nomatch hempty
        | nil =>
          rw [height_nil] at hh
          refine ⟨_, .root hinc ?_, rfl, ?_, ?_⟩
          · rw [toList, List.append_nil, List.append_nil]
            exact .refl hl hls
          · rw [height_cell, hh]
            exact (Nat.le_max_left _ _).trans (Nat.le_add_left _ _)
          · rw [height_cell, hh, Nat.max_zero]
            exact (Nat.add_comm _ _).le
      · rename_i hright
        rw [wp_bind]
        refine (wp_removeFirst (by simpa using hright) hr hrs).imp ?_
        rintro ⟨⟨nk, nv⟩, right'⟩ cells₁ ⟨rest, hentries, hbuilt, hlow, hhigh⟩
        dsimp only at hentries hbuilt hlow hhigh ⊢
        rw [wp_bind]
        refine (wp_balanced hl hbuilt.valid (hls.mono hbuilt.grows) hbuilt.stored (by omega)
          (by omega)).imp ?_
        rintro t cells₂ ⟨ht, hth, hth', hth''⟩
        refine ⟨_, .root hinc ⟨hbuilt.grows.trans ht.grows, ht.valid, ht.stored, ?_⟩, rfl, ?_, ?_⟩
        · rw [ht.entries, hbuilt.entries, hentries, List.append_nil]
        · simp only [height_cell]
          omega
        · simp only [height_cell]
          omega

end SharedOrder

end Fz.Inventory
