import Fz.Base.Except
import Fz.Terms.DenotationTable

/-!
# Denotation tables come back

Each encoder writes a code that its decoder recognises, and the codes compose, so decoding an
encoded table gives the table, and a carrier that breaks off or goes on is rejected.  Apart from
that, decoding ends in a table or a message on every byte string: every field takes bytes off the
input, and what the program asserts about a field has been checked before.
-/

namespace Fz.Terms

open Fz.Base

/-- The message of a carrier that breaks off. -/
def Truncated (fault : DecodeFault) : Prop := fault = .rejected "truncated source denotation"

variable {hostIsLittleEndian : Bool}

/-! ## Fields -/

theorem decodes_take (bytes : List UInt8) : Decodes Truncated (take bytes.length) bytes bytes where
  append rest := by
    show (if _ then _ else _ : DenotationReader (List UInt8)) _ = _
    rw [if_pos (by rw [List.length_append]; omega)]
    show Except.ok ((bytes ++ rest).take bytes.length, (bytes ++ rest).drop bytes.length) = _
    rw [List.take_left, List.drop_left]
  short start hstart hne := by
    refine ⟨_, rfl, ?_⟩
    show (if _ then _ else _ : DenotationReader (List UInt8)) _ = _
    rw [if_neg]
    · rfl
    · exact fun hlen => hne (hstart.eq_of_length_le hlen)

theorem length_toNeBytes (value : Nat) : (toNeBytes hostIsLittleEndian value).length = 4 := by
  cases hostIsLittleEndian <;> rfl

theorem fromNeBytes_toNeBytes {value : Nat} (h : value < 2 ^ 32) :
    fromNeBytes hostIsLittleEndian (toNeBytes hostIsLittleEndian value) = some value := by
  have hvalue : value % 2 ^ 8 + 2 ^ 8 * (value / 2 ^ 8 % 2 ^ 8) +
      2 ^ 16 * (value / 2 ^ 16 % 2 ^ 8) + 2 ^ 24 * (value / 2 ^ 24 % 2 ^ 8) = value := by
    omega
  cases hostIsLittleEndian with
  | true => simpa [fromNeBytes, toNeBytes] using hvalue
  | false => simpa [fromNeBytes, toNeBytes] using hvalue

theorem decodes_u32 {value : Nat} (h : value < 2 ^ 32) :
    Decodes Truncated (readU32 hostIsLittleEndian) (toNeBytes hostIsLittleEndian value) value := by
  have htake := decodes_take (toNeBytes hostIsLittleEndian value)
  rw [length_toNeBytes] at htake
  refine htake.bind_pure ?_
  rw [fromNeBytes_toNeBytes h]

variable {bytes : List UInt8}

theorem encodeU32_eq_ok {value : Nat} : encodeU32 hostIsLittleEndian value = .ok bytes ↔
      value < 2 ^ 32 ∧ bytes = toNeBytes hostIsLittleEndian value := by
  unfold encodeU32
  split
  · rename_i h
    exact ⟨fun heq => ⟨h, (Except.ok.inj heq).symm⟩, fun ⟨_, heq⟩ => heq ▸ rfl⟩
  · rename_i h
    exact ⟨nofun, fun heq => absurd heq.1 h⟩

theorem decodes_encodeU32 {value : Nat} (h : encodeU32 hostIsLittleEndian value = .ok bytes) :
    Decodes Truncated (readU32 hostIsLittleEndian) bytes value := by
  obtain ⟨hvalue, rfl⟩ := encodeU32_eq_ok.mp h
  exact decodes_u32 hvalue

theorem decodes_tag (tag : UInt8) : Decodes Truncated readTag [tag] tag :=
  (decodes_take [tag]).bind_pure rfl

theorem fromUTF8?_toUTF8 (value : String) :
    String.fromUTF8? ⟨value.toUTF8.data.toList.toArray⟩ = some value := by
  rw [Array.toArray_toList]
  exact dif_pos value.isValidUTF8

theorem decodes_encodeString {value : String}
    (h : encodeString hostIsLittleEndian value = .ok bytes) :
    Decodes Truncated (readString hostIsLittleEndian) bytes value := by
  obtain ⟨length, hlength, hbytes⟩ := Except.bind_eq_ok.mp h
  obtain rfl := Except.ok.inj hbytes
  refine (decodes_encodeU32 hlength).bind ?_
  have htake := decodes_take value.toUTF8.data.toList
  rw [Array.length_toList] at htake
  refine htake.bind_pure ?_
  rw [fromUTF8?_toUTF8]

theorem decodes_encodeEach {α : Type} {encode : α → Except String (List UInt8)}
    {read : DenotationReader α}
    {as : List α} (hread : ∀ a ∈ as, ∀ bytes, encode a = .ok bytes → Decodes Truncated read bytes a)
    (h : encodeEach encode as = .ok bytes) :
    Decodes Truncated (decodeMany read as.length) bytes as := by
  obtain ⟨codes, hcodes, rfl⟩ : ∃ codes,
      List.Forall₂ (fun code a => Decodes Truncated read code a) codes as ∧
        bytes = codes.flatten := by
    induction as generalizing bytes with
    | nil => exact ⟨[], .nil, (Except.ok.inj h).symm⟩
    | cons a as ih =>
      obtain ⟨code, hcode, h⟩ := Except.bind_eq_ok.mp h
      obtain ⟨rest, hrest, h⟩ := Except.bind_eq_ok.mp h
      obtain rfl := Except.ok.inj h
      obtain ⟨hfirst, hothers⟩ := List.forall_mem_cons.mp hread
      obtain ⟨codes, hcodes, rfl⟩ := ih hothers hrest
      exact ⟨code :: codes, .cons (hfirst code hcode) hcodes, rfl⟩
  exact .many hcodes

/-! ## Modules -/

theorem decodes_segment {segment : String} (hne : segment ≠ "")
    (h : encodeString hostIsLittleEndian segment = .ok bytes) :
    Decodes Truncated (readSegment hostIsLittleEndian) bytes segment := by
  refine (decodes_encodeString h).bind_pure ?_
  rw [if_neg hne]

theorem fromSegments_segments (name : ModuleName) :
    ModuleName.fromSegments name.segments = some name :=
  dif_pos ⟨name.segments_ne, name.segment_ne⟩

theorem decodes_moduleName {name : ModuleName}
    (h : encodeModuleName hostIsLittleEndian name = .ok bytes) :
    Decodes Truncated (readModuleName hostIsLittleEndian) bytes name := by
  obtain ⟨count, hcount, h⟩ := Except.bind_eq_ok.mp h
  obtain ⟨segments, hsegments, h⟩ := Except.bind_eq_ok.mp h
  obtain rfl := Except.ok.inj h
  refine (decodes_encodeU32 hcount).bind ?_
  rw [if_neg (List.length_pos_iff.mpr name.segments_ne).ne']
  have heach : Decodes Truncated (decodeMany (readSegment hostIsLittleEndian)
      name.segments.length) segments name.segments :=
    decodes_encodeEach (fun s hs bytes hbytes => decodes_segment (name.segment_ne s hs) hbytes)
      hsegments
  refine heach.bind_pure ?_
  rw [fromSegments_segments]

theorem decodes_module {module : Option ModuleDenotation}
    (h : encodeModule hostIsLittleEndian module = .ok bytes) :
    Decodes Truncated (readModule hostIsLittleEndian) bytes module := by
  cases module with
  | none =>
    obtain rfl := Except.ok.inj h
    exact (decodes_tag 0).bind_pure rfl
  | some module =>
    cases module with
    | named name =>
      obtain ⟨code, hcode, h⟩ := Except.bind_eq_ok.mp h
      obtain rfl := Except.ok.inj h
      exact (decodes_tag 1).bind ((decodes_moduleName hcode).bind_pure rfl)
    | protocolImpl protocol target =>
      obtain ⟨code, hcode, h⟩ := Except.bind_eq_ok.mp h
      obtain ⟨code', hcode', h⟩ := Except.bind_eq_ok.mp h
      obtain rfl := Except.ok.inj h
      exact (decodes_tag 2).bind ((decodes_moduleName hcode).bind
        ((decodes_moduleName hcode').bind_pure rfl))

/-! ## What reading takes -/

theorem wp_take (n : Nat) (s : List UInt8) :
    wp (take n) (fun bytes s' => bytes.length = n ∧ s'.length + n = s.length)
      (fun e => e ≠ .panicked) s := by
  show wp (if _ then _ else _ : DenotationReader (List UInt8)) _ _ s
  split
  · rename_i h
    refine ⟨List.length_take_of_le h, ?_⟩
    rw [List.length_drop]
    omega
  · exact nofun

theorem wp_readU32 (s : List UInt8) :
    wp (readU32 hostIsLittleEndian) (fun _ s' => s'.length + 4 = s.length)
      (fun e => e ≠ .panicked) s := by
  unfold readU32
  rw [wp_bind]
  refine (wp_take 4 s).imp ?_
  rintro bytes s' ⟨hfour, hlength⟩
  obtain ⟨a, b, c, d, rfl⟩ := List.length_eq_four.mp hfour
  cases hostIsLittleEndian with
  | true => exact hlength
  | false => exact hlength

theorem wp_readTag (s : List UInt8) :
    wp readTag (fun _ s' => s'.length + 1 = s.length) (fun e => e ≠ .panicked) s := by
  unfold readTag
  rw [wp_bind]
  refine (wp_take 1 s).imp ?_
  rintro bytes s' ⟨hone, hlength⟩
  obtain ⟨tag, rfl⟩ := List.length_eq_one_iff.mp hone
  exact hlength

/-- A reader takes bytes off its input, and ends in a value or a message. -/
def Takes {α : Type} (p : DenotationReader α) : Prop :=
  ∀ s, wp p (fun _ s' => s'.length ≤ s.length) (fun e => e ≠ .panicked) s

namespace Takes

variable {α β : Type} {p : DenotationReader α} {f : α → DenotationReader β}

theorem bind (hp : Takes p) (hf : ∀ a, Takes (f a)) : Takes (p >>= f) := by
  intro s
  rw [wp_bind]
  exact (hp s).imp fun a s₁ h₁ => (hf a s₁).imp fun _ _ h₂ => h₂.trans h₁

theorem pure (a : α) : Takes (pure a : DenotationReader α) := fun _ => le_rfl

theorem reject (message : String) : Takes (reject message : DenotationReader α) := fun _ => nofun

theorem u32 : Takes (readU32 hostIsLittleEndian) :=
  fun s => (wp_readU32 s).imp fun _ _ h => by omega

theorem tag : Takes readTag := fun s => (wp_readTag s).imp fun _ _ h => by omega

theorem take (n : Nat) : Takes (take n) := fun s => (wp_take n s).imp fun _ _ h => by omega

theorem many (hp : Takes p) (n : Nat) : Takes (decodeMany p n) := by
  intro s
  refine (wp_decodeMany (I := fun s' => s'.length ≤ s.length) (Q := fun _ => True)
    (fun s' hs' => (hp s').imp fun _ _ h => ⟨trivial, h.trans hs'⟩) n s le_rfl).imp ?_
  exact fun _ _ h => h.2.2

theorem string : Takes (readString hostIsLittleEndian) := by
  refine u32.bind fun length => (take length).bind fun bytes => ?_
  split
  · exact .pure _
  · exact .reject _

theorem moduleName : Takes (readModuleName hostIsLittleEndian) := by
  refine u32.bind fun count => ?_
  split
  · exact .reject _
  · rename_i hcount
    intro s
    have hsegment : ∀ s', s'.length ≤ s.length → wp (readSegment hostIsLittleEndian)
        (fun segment s'' => segment ≠ "" ∧ s''.length ≤ s.length) (fun e => e ≠ .panicked) s' := by
      intro s' hs'
      rw [readSegment, wp_bind]
      refine (string s').imp fun segment s'' hs'' => ?_
      split
      · exact nofun
      · rename_i hne
        exact ⟨hne, hs''.trans hs'⟩
    rw [wp_bind]
    refine (wp_decodeMany hsegment count s le_rfl).imp ?_
    rintro segments s' ⟨rfl, hne, hs'⟩
    have hsome : segments ≠ [] := fun hnil => hcount (hnil ▸ rfl)
    rw [ModuleName.fromSegments, dif_pos ⟨hsome, hne⟩]
    exact hs'

theorem module : Takes (readModule hostIsLittleEndian) := by
  refine tag.bind fun tag => ?_
  split
  · exact .pure _
  · split
    · exact moduleName.bind fun name => .pure _
    · split
      · exact moduleName.bind fun protocol => moduleName.bind fun target => .pure _
      · exact .reject _

end Takes

/-! ## Denotations -/

/-- The loop as a reader: the input is shorter after each round, so every round runs. -/
theorem readOrigins_eq (generated : List (Nat × Nat)) :
    readOrigins hostIsLittleEndian generated = (do
      let arity ← readU32 hostIsLittleEndian
      let tag ← readTag
      if tag = 0 then do
        let module ← readModule hostIsLittleEndian
        let name ← readString hostIsLittleEndian
        pure (wrapGenerated generated (.named module name arity))
      else if tag = 1 then do
        let occurrence ← readU32 hostIsLittleEndian
        readOrigins hostIsLittleEndian ((arity, occurrence) :: generated)
      else reject "invalid source denotation tag" : DenotationReader FunctionDenotation) := by
  funext bytes
  rw [readOrigins]
  show _ = (readU32 hostIsLittleEndian bytes >>= fun r => _)
  cases harity : readU32 hostIsLittleEndian bytes with
  | error e => rfl
  | ok r =>
    obtain ⟨arity, bytes₁⟩ := r
    have hlen₁ := (wp_readU32 bytes).ok harity
    show _ = (readTag bytes₁ >>= fun r => _)
    show (readTag bytes₁ >>= fun r => _) = _
    cases htag : readTag bytes₁ with
    | error e => rfl
    | ok r =>
      obtain ⟨tag, bytes₂⟩ := r
      have hlen₂ := (wp_readTag bytes₁).ok htag
      show (if tag = 0 then _
        else if tag = 1 then (readU32 hostIsLittleEndian bytes₂ >>= fun r => _) else _) =
          (if tag = 0 then _ else if tag = 1 then _ else _ : DenotationReader _) bytes₂
      split
      · rfl
      · split
        · show _ = (readU32 hostIsLittleEndian bytes₂ >>= fun r => _)
          cases hoccurrence : readU32 hostIsLittleEndian bytes₂ with
          | error e => rfl
          | ok r =>
            obtain ⟨occurrence, bytes₃⟩ := r
            have hlen₃ := (wp_readU32 bytes₂).ok hoccurrence
            show (if bytes₃.length < bytes.length then _ else _) = _
            rw [if_pos (by omega)]
            rfl
        · rfl

theorem decodes_origins { denotation : FunctionDenotation}
    (h : encodeDenotation hostIsLittleEndian denotation = .ok bytes)
    (generated : List (Nat × Nat)) :
    Decodes Truncated (readOrigins hostIsLittleEndian generated) bytes
      (wrapGenerated generated denotation) := by
  induction denotation generalizing bytes generated with
  | named module name arity =>
    obtain ⟨arityCode, harity, h⟩ := Except.bind_eq_ok.mp h
    obtain ⟨moduleCode, hmodule, h⟩ := Except.bind_eq_ok.mp h
    obtain ⟨nameCode, hname, h⟩ := Except.bind_eq_ok.mp h
    obtain rfl := Except.ok.inj h
    rw [readOrigins_eq]
    refine (decodes_encodeU32 harity).bind ((decodes_tag 0).bind ?_)
    rw [if_pos rfl]
    exact (decodes_module hmodule).bind ((decodes_encodeString hname).bind_pure rfl)
  | generated owner occurrence arity ih =>
    obtain ⟨arityCode, harity, h⟩ := Except.bind_eq_ok.mp h
    obtain ⟨occurrenceCode, hoccurrence, h⟩ := Except.bind_eq_ok.mp h
    obtain ⟨ownerCode, howner, h⟩ := Except.bind_eq_ok.mp h
    obtain rfl := Except.ok.inj h
    rw [readOrigins_eq]
    refine (decodes_encodeU32 harity).bind ((decodes_tag 1).bind ?_)
    rw [if_neg (by decide), if_pos rfl]
    exact (decodes_encodeU32 hoccurrence).bind (ih howner ((arity, occurrence) :: generated))

theorem takes_origins (generated : List (Nat × Nat)) :
    Takes (readOrigins hostIsLittleEndian generated) := by
  intro s
  generalize hn : s.length = n
  induction n using Nat.strongRecOn generalizing s generated with
  | ind n ih =>
    rw [readOrigins_eq, wp_bind]
    refine (wp_readU32 s).imp fun arity s₁ h₁ => ?_
    rw [wp_bind]
    refine (wp_readTag s₁).imp fun tag s₂ h₂ => ?_
    split
    · refine (Takes.module.bind (fun module => Takes.string.bind fun name => .pure _) s₂).imp
        fun _ _ h₃ => ?_
      omega
    · split
      · rw [wp_bind]
        refine (wp_readU32 s₂).imp fun occurrence s₃ h₃ => ?_
        exact (ih s₃.length (by omega) _ s₃ rfl).imp fun _ _ h₄ => by omega
      · exact nofun

theorem decodes_entry {entry : UInt32 × FunctionDenotation}
    (h : encodeEntry hostIsLittleEndian entry = .ok bytes) :
    Decodes Truncated (readEntry hostIsLittleEndian) bytes entry := by
  obtain ⟨id, denotation⟩ := entry
  unfold encodeEntry at h
  split at h
  · cases h
  · rename_i hid
    obtain ⟨idCode, hidCode, h⟩ := Except.bind_eq_ok.mp h
    obtain ⟨code, hcode, h⟩ := Except.bind_eq_ok.mp h
    obtain rfl := Except.ok.inj h
    refine (decodes_encodeU32 hidCode).bind ?_
    rw [UInt32.ofNat_toNat, if_neg hid]
    exact (decodes_origins hcode []).bind_pure rfl

theorem takes_entry : Takes (readEntry hostIsLittleEndian) := by
  refine Takes.u32.bind fun id => ?_
  split
  · exact .reject _
  · exact (takes_origins []).bind fun denotation => .pure _

/-! ## Tables -/

/-- The decoder up to its check that nothing is left. -/
def readTable (hostIsLittleEndian : Bool) : DenotationReader DenotationTable := do
  let count ← readU32 hostIsLittleEndian
  decodeMany (readEntry hostIsLittleEndian) count

theorem decodeClosureDenotations_eq (bytes : List UInt8) :
    decodeClosureDenotations hostIsLittleEndian bytes = (do
      let (table, rest) ← readTable hostIsLittleEndian bytes
      if rest.isEmpty then pure table
      else .error (.rejected "trailing source denotation bytes")) := by
  show (readU32 hostIsLittleEndian bytes >>= fun r => _) =
    ((readU32 hostIsLittleEndian bytes >>= fun r => _) >>= fun r => _)
  cases readU32 hostIsLittleEndian bytes with
  | error e => rfl
  | ok r => rfl

theorem decodes_table {table : DenotationTable}
    (h : encodeClosureDenotations hostIsLittleEndian table = .ok bytes) :
    Decodes Truncated (readTable hostIsLittleEndian) bytes table := by
  obtain ⟨count, hcount, h⟩ := Except.bind_eq_ok.mp h
  obtain ⟨entries, hentries, h⟩ := Except.bind_eq_ok.mp h
  obtain rfl := Except.ok.inj h
  exact (decodes_encodeU32 hcount).bind
    (decodes_encodeEach (fun entry _ code hcode => decodes_entry hcode) hentries)

theorem takes_table : Takes (readTable hostIsLittleEndian) :=
  Takes.u32.bind fun count => takes_entry.many count

/-! ## What the format can hold -/

def StringFits (value : String) : Prop := value.toUTF8.size < 2 ^ 32

def ModuleNameFits (name : ModuleName) : Prop :=
  name.segments.length < 2 ^ 32 ∧ ∀ s ∈ name.segments, StringFits s

def ModuleFits : Option ModuleDenotation → Prop
  | none => True
  | some (.named name) => ModuleNameFits name
  | some (.protocolImpl protocol target) => ModuleNameFits protocol ∧ ModuleNameFits target

def DenotationFits : FunctionDenotation → Prop
  | .named module name arity => arity < 2 ^ 32 ∧ ModuleFits module ∧ StringFits name
  | .generated owner occurrence arity =>
    arity < 2 ^ 32 ∧ occurrence < 2 ^ 32 ∧ DenotationFits owner

/-- Every number and every length fits a field of four bytes, and no entry is internal. -/
def TableFits (table : DenotationTable) : Prop :=
  table.length < 2 ^ 32 ∧ ∀ entry ∈ table, entry.1 ≠ INTERNAL ∧ DenotationFits entry.2

theorem encodeU32_of_lt {value : Nat} (h : value < 2 ^ 32) :
    encodeU32 hostIsLittleEndian value = .ok (toNeBytes hostIsLittleEndian value) :=
  encodeU32_eq_ok.mpr ⟨h, rfl⟩

theorem exists_encodeEach {α : Type} {encode : α → Except String (List UInt8)} {as : List α}
    (h : ∀ a ∈ as, ∃ bytes, encode a = .ok bytes) : ∃ bytes, encodeEach encode as = .ok bytes := by
  induction as with
  | nil => exact ⟨[], rfl⟩
  | cons a as ih =>
    obtain ⟨hfirst, hothers⟩ := List.forall_mem_cons.mp h
    obtain ⟨code, hcode⟩ := hfirst
    obtain ⟨rest, hrest⟩ := ih hothers
    exact ⟨_, Except.bind_eq_ok.mpr ⟨code, hcode, Except.bind_eq_ok.mpr ⟨rest, hrest, rfl⟩⟩⟩

theorem exists_encodeString {value : String} (h : StringFits value) :
    ∃ bytes, encodeString hostIsLittleEndian value = .ok bytes :=
  ⟨_, Except.bind_eq_ok.mpr ⟨_, encodeU32_of_lt h, rfl⟩⟩

theorem exists_encodeModuleName {name : ModuleName} (h : ModuleNameFits name) :
    ∃ bytes, encodeModuleName hostIsLittleEndian name = .ok bytes := by
  obtain ⟨hcount, hsegments⟩ := h
  have heach : ∃ bytes, encodeEach (encodeString hostIsLittleEndian) name.segments = .ok bytes :=
    exists_encodeEach fun s hs => exists_encodeString (hsegments s hs)
  obtain ⟨segments, heach⟩ := heach
  exact ⟨_, Except.bind_eq_ok.mpr ⟨_, encodeU32_of_lt hcount,
    Except.bind_eq_ok.mpr ⟨segments, heach, rfl⟩⟩⟩

theorem exists_encodeModule {module : Option ModuleDenotation} (h : ModuleFits module) :
    ∃ bytes, encodeModule hostIsLittleEndian module = .ok bytes := by
  cases module with
  | none => exact ⟨[0], rfl⟩
  | some module =>
    cases module with
    | named name =>
      obtain ⟨code, hcode⟩ := exists_encodeModuleName h
      exact ⟨_, Except.bind_eq_ok.mpr ⟨code, hcode, rfl⟩⟩
    | protocolImpl protocol target =>
      obtain ⟨code, hcode⟩ := exists_encodeModuleName h.1
      obtain ⟨code', hcode'⟩ := exists_encodeModuleName h.2
      exact ⟨_, Except.bind_eq_ok.mpr ⟨code, hcode, Except.bind_eq_ok.mpr ⟨code', hcode', rfl⟩⟩⟩

theorem exists_encodeDenotation { denotation : FunctionDenotation} (h : DenotationFits denotation) :
    ∃ bytes, encodeDenotation hostIsLittleEndian denotation = .ok bytes := by
  induction denotation with
  | named module name arity =>
    obtain ⟨harity, hmodule, hname⟩ := h
    obtain ⟨code, hcode⟩ := exists_encodeModule hmodule
    obtain ⟨code', hcode'⟩ := exists_encodeString hname
    exact ⟨_, Except.bind_eq_ok.mpr ⟨_, encodeU32_of_lt harity, Except.bind_eq_ok.mpr
      ⟨code, hcode, Except.bind_eq_ok.mpr ⟨code', hcode', rfl⟩⟩⟩⟩
  | generated owner occurrence arity ih =>
    obtain ⟨harity, hoccurrence, howner⟩ := h
    obtain ⟨code, hcode⟩ := ih howner
    exact ⟨_, Except.bind_eq_ok.mpr ⟨_, encodeU32_of_lt harity, Except.bind_eq_ok.mpr
      ⟨_, encodeU32_of_lt hoccurrence, Except.bind_eq_ok.mpr ⟨code, hcode, rfl⟩⟩⟩⟩

theorem exists_encodeClosureDenotations {table : DenotationTable} (h : TableFits table) :
    ∃ bytes, encodeClosureDenotations hostIsLittleEndian table = .ok bytes := by
  obtain ⟨hcount, hentries⟩ := h
  have heach : ∃ bytes, encodeEach (encodeEntry hostIsLittleEndian) table = .ok bytes := by
    refine exists_encodeEach fun entry hentry => ?_
    obtain ⟨hid, hfits⟩ := hentries entry hentry
    obtain ⟨code, hcode⟩ := exists_encodeDenotation hfits
    rw [encodeEntry, if_neg hid]
    exact ⟨_, Except.bind_eq_ok.mpr ⟨_, encodeU32_of_lt entry.1.toNat_lt,
      Except.bind_eq_ok.mpr ⟨code, hcode, rfl⟩⟩⟩
  obtain ⟨entries, heach⟩ := heach
  exact ⟨_, Except.bind_eq_ok.mpr ⟨_, encodeU32_of_lt hcount,
    Except.bind_eq_ok.mpr ⟨entries, heach, rfl⟩⟩⟩

/-- A table that fits the format is encoded and comes back.  Its code is rejected where it breaks
off and where it goes on, and on no bytes at all does decoding panic. -/
theorem denotation_table_round_trip (hostIsLittleEndian : Bool) :
    (∀ table, TableFits table → ∃ bytes,
      encodeClosureDenotations hostIsLittleEndian table = .ok bytes ∧
      decodeClosureDenotations hostIsLittleEndian bytes = .ok table ∧
      (∀ start, start <+: bytes → start ≠ bytes →
        ∃ message, decodeClosureDenotations hostIsLittleEndian start = .error (.rejected message)) ∧
      ∀ more, more ≠ [] → ∃ message, decodeClosureDenotations hostIsLittleEndian (bytes ++ more) =
          .error (.rejected message)) ∧
    ∀ bytes, decodeClosureDenotations hostIsLittleEndian bytes ≠ .error .panicked := by
  constructor
  · intro table hfits
    obtain ⟨bytes, hencode⟩ := exists_encodeClosureDenotations hfits
    have htable := decodes_table hencode
    refine ⟨bytes, hencode, ?_, fun start hstart hne => ?_, fun more hmore => ?_⟩
    · have hrun := htable.append []
      rw [List.append_nil] at hrun
      rw [decodeClosureDenotations_eq, hrun]
      rfl
    · obtain ⟨e, rfl, hfail⟩ := htable.short start hstart hne
      refine ⟨"truncated source denotation", ?_⟩
      rw [decodeClosureDenotations_eq, hfail]
      rfl
    · refine ⟨"trailing source denotation bytes", ?_⟩
      rw [decodeClosureDenotations_eq, htable.append]
      show (if more.isEmpty then _ else _ : Except DecodeFault DenotationTable) = _
      rw [if_neg (by rwa [List.isEmpty_iff])]
  · intro bytes hpanic
    rw [decodeClosureDenotations_eq] at hpanic
    cases hrun : readTable hostIsLittleEndian bytes with
    | error e =>
      rw [hrun] at hpanic
      exact (takes_table bytes).error hrun (Except.error.inj hpanic)
    | ok r =>
      rw [hrun] at hpanic
      have hcheck : (if r.2.isEmpty then pure r.1
        else .error (.rejected "trailing source denotation bytes") : Except DecodeFault _) =
          .error .panicked := hpanic
      split at hcheck
      · cases hcheck
      · cases hcheck

/-- A lambda in a lambda of a function of a protocol implementation. -/
def sampleTable : DenotationTable :=
  [(7, .generated (.generated (.named (some (.protocolImpl ⟨["Eq"], by decide, by decide⟩
    ⟨["Int"], by decide, by decide⟩)) "eq" 2) 0 1) 3 0)]

theorem sampleTable_round_trip : ∃ bytes, encodeClosureDenotations true sampleTable = .ok bytes ∧
    decodeClosureDenotations true bytes = .ok sampleTable := by
  have hfits : TableFits sampleTable := by
    refine ⟨by decide, fun entry hentry => ?_⟩
    obtain rfl := List.mem_singleton.mp hentry
    refine ⟨by decide, by decide, by decide, by decide, by decide, by decide, ?_, ?_⟩
    · refine ⟨⟨by decide, fun s hs => ?_⟩, by decide, fun s hs => ?_⟩
      · obtain rfl := List.mem_singleton.mp hs
        show _ < _
        decide
      · obtain rfl := List.mem_singleton.mp hs
        show _ < _
        decide
    · show _ < _
      decide
  obtain ⟨bytes, hencode, hdecode, _⟩ := (denotation_table_round_trip true).1 sampleTable hfits
  exact ⟨bytes, hencode, hdecode⟩

end Fz.Terms
