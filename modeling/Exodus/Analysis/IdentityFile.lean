import Exodus.Interface.Canonical
import Exodus.Interface.HttpSpec
import Exodus.Model.Identity

/-!
# The identity survives restarts

`create_identity` writes the file in one go and does not check on a restart that all of it
got there.  Loading any first part of the file fails or gives the identity that was being
written (`loadIdentity_take`): without the whole second line the public key is too short.
Over any sequence of starts all identities are therefore the same (`identity_stable`).
-/

set_option autoImplicit false

namespace Exodus.Analysis

open Exodus.Library Exodus.Model Exodus.Interface

variable {line rest text : List Char}

/-! ## Lines -/

/-- The first line ends at the first line feed. -/
theorem takeWhile_line (h : '\n' ∉ line) (rest : List Char) :
    (line ++ '\n' :: rest).takeWhile (· ≠ '\n') = line := by
  induction line with
  | nil => simp
  | cons c line ih =>
    have hc : c ≠ '\n' := fun heq => h (by simp [heq])
    simp only [List.cons_append, List.takeWhile_cons, hc, ne_eq, not_false_eq_true, decide_true,
      if_true]
    rw [ih fun hmem => h (by simp [hmem])]

/-- The rest starts there. -/
theorem dropWhile_line (h : '\n' ∉ line) (rest : List Char) :
    (line ++ '\n' :: rest).dropWhile (· ≠ '\n') = '\n' :: rest := by
  induction line with
  | nil => simp
  | cons c line ih =>
    have hc : c ≠ '\n' := fun heq => h (by simp [heq])
    simp only [List.cons_append, List.dropWhile_cons, hc, ne_eq, not_false_eq_true, decide_true,
      if_true]
    exact ih fun hmem => h (by simp [hmem])

/-- A line with its end, and the lines behind it. -/
theorem lines_of_newline (h : '\n' ∉ line) (rest : List Char) :
    lines (line ++ '\n' :: rest) = stripCr line :: lines rest := by
  have hne : line ++ '\n' :: rest ≠ [] := by simp
  rw [lines, dif_neg hne, takeWhile_line h]
  split
  · rename_i hnil
    rw [dropWhile_line h] at hnil
    cases hnil
  · rename_i c tail htail
    rw [dropWhile_line h, List.cons.injEq] at htail
    rw [htail.2]

/-- A last line without an end. -/
theorem lines_of_last (h : '\n' ∉ line) (hne : line ≠ []) : lines line = [line] := by
  have hnil : line.dropWhile (· ≠ '\n') = [] := by
    rw [List.dropWhile_eq_nil_iff]
    intro c hc
    simpa using fun heq : c = '\n' => h (heq ▸ hc)
  rw [lines, dif_neg hne]
  split
  · rfl
  · rename_i c tail htail
    rw [hnil] at htail
    cases htail

/-! ## Hex texts -/

/-- The characters of a hex text. -/
def HexText (line : List Char) : Prop := ∀ c ∈ line, ∃ n < 16, c = Nat.digitChar n

/-- The hexadecimal text of bytes is one of hexadecimal digits. -/
theorem hexText_hex (data : List UInt8) : HexText (hex data).toList := by
  intro c hc
  rw [hex, String.toList_ofList, List.mem_flatMap] at hc
  obtain ⟨b, -, hc⟩ := hc
  have hb := b.toNat_lt
  rcases List.mem_cons.mp hc with rfl | hc
  · exact ⟨b.toNat / 16, by omega, rfl⟩
  · rw [List.mem_singleton.mp hc]
    exact ⟨b.toNat % 16, by omega, rfl⟩

/-- It has two digits for each byte. -/
theorem length_hex (data : List UInt8) : (hex data).toList.length = 2 * data.length := by
  rw [hex, String.toList_ofList]
  induction data with
  | nil => rfl
  | cons b rest ih =>
    rw [List.flatMap_cons, List.length_append, ih]
    simp only [List.length_cons, List.length_nil]
    omega

/-- A first part of such a text is one. -/
theorem HexText.take (h : HexText line) (k : ℕ) : HexText (line.take k) :=
  fun c hc => h c (List.mem_of_mem_take hc)

/-- A hex digit is no white space and one byte. -/
theorem hexDigit_plain {n : ℕ} (hn : n < 16) : isWhitespace (Nat.digitChar n) = false ∧
    Nat.digitChar n ≠ '\n' ∧ Nat.digitChar n ≠ '\r' ∧
      (String.utf8EncodeChar (Nat.digitChar n)).length = 1 := by
  interval_cases n <;> decide

/-- It has no line feed. -/
theorem HexText.newline_not_mem (h : HexText line) : '\n' ∉ line := by
  intro hmem
  obtain ⟨n, hn, heq⟩ := h _ hmem
  exact (hexDigit_plain hn).2.1 heq.symm

/-- It has no carriage return to strip. -/
theorem HexText.stripCr_eq (h : HexText line) : stripCr line = line := by
  unfold stripCr
  rw [if_neg]
  intro hlast
  obtain ⟨n, hn, heq⟩ := h _ (List.mem_of_getLast? hlast)
  exact (hexDigit_plain hn).2.2.1 heq.symm

/-- It has no blanks to trim. -/
theorem HexText.trim_eq (h : HexText line) : trim line = line := by
  have hplain : ∀ c ∈ line, isWhitespace c = false := by
    intro c hc
    obtain ⟨n, hn, rfl⟩ := h c hc
    exact (hexDigit_plain hn).1
  have hstart : trimStart line = line := by
    cases line with
    | nil => rfl
    | cons c rest =>
      unfold trimStart
      rw [List.dropWhile_cons_of_neg (by simp [hplain c (by simp)])]
  rw [trim, hstart]
  rcases List.eq_nil_or_concat' line with rfl | ⟨l, c, rfl⟩
  · rfl
  · exact trimEnd_append_cons (hplain c (by simp)) l []

/-- What decodes has two characters a byte. -/
theorem length_of_hexPairs {bytes out : List UInt8} (h : hexPairs bytes = some out) :
    bytes.length = 2 * out.length := by
  induction bytes using hexPairs.induct generalizing out with
  | case1 =>
    cases h
    rfl
  | case2 b => cases h
  | case3 a b rest ih =>
    unfold hexPairs at h
    simp only [Option.bind_eq_bind, Option.bind_eq_some_iff, Option.pure_def,
      Option.some.injEq] at h
    obtain ⟨hi, -, lo, -, tail, htail, rfl⟩ := h
    rw [List.length_cons, List.length_cons, List.length_cons, ih htail]
    omega

/-- It decodes to half as many bytes. -/
theorem HexText.length_of_hexDecode (h : HexText line) {out : List UInt8}
    (hout : hexDecode (String.ofList line) = some out) : line.length = 2 * out.length := by
  rw [← length_of_hexPairs hout, asBytes_ofList, List.length_flatMap]
  have hone : line.map (fun c => (String.utf8EncodeChar c).length) = line.map fun _ => 1 := by
    apply List.map_congr_left
    intro c hc
    obtain ⟨n, hn, rfl⟩ := h c hc
    exact (hexDigit_plain hn).2.2.2
  rw [hone, List.map_const', List.sum_replicate, smul_eq_mul, mul_one]

/-! ## Loading -/

variable [Crates] {keys : KeyPair}

/-- A file whose first two lines are hex texts. -/
theorem loadIdentity_of_lines {first second : List Char} {more : List (List Char)}
    (hfirst : HexText first) (hsecond : HexText second)
    (hlines : lines text = first :: second :: more) {identity : NodeIdentity}
    (hload : loadIdentity text = .ok identity) :
    hexDecode (String.ofList first) = some identity.privateKey ∧
      identity.publicKeyHex = String.ofList second ∧ second.length = 2 * publicKeyBytes ∧
      ∃ publicKey, hexDecode (String.ofList second) = some publicKey ∧
        identity.nodeId = nodeIdFromPublicKey publicKey := by
  unfold loadIdentity at hload
  rw [hlines] at hload
  simp only [List.getElem?_cons_zero, List.getElem?_cons_succ, Option.map_some, hfirst.trim_eq,
    hsecond.trim_eq] at hload
  cases hprivate : hexDecode (String.ofList first) with
  | none =>
    rw [hprivate] at hload
    cases hload
  | some privateKey =>
    cases hpublic : hexDecode (String.ofList second) with
    | none =>
      rw [hprivate, hpublic] at hload
      cases hload
    | some publicKey =>
      rw [hprivate, hpublic] at hload
      dsimp only at hload
      split_ifs at hload with hlength hlength'
      cases hload
      refine ⟨rfl, rfl, ?_, publicKey, rfl, rfl⟩
      rw [hsecond.length_of_hexDecode hpublic, not_not.mp hlength']

/-- The identity that is read from the two lines of a key pair. -/
theorem loadIdentity_of_keys (keys : KeyPair) {more : List (List Char)}
    (hlines : lines text = (hex keys.privateKey).toList :: (hex keys.publicKey).toList :: more) :
    loadIdentity text = .ok keys.identity := by
  unfold loadIdentity
  rw [hlines]
  simp only [List.getElem?_cons_zero, List.getElem?_cons_succ, Option.map_some,
    (hexText_hex keys.privateKey).trim_eq, (hexText_hex keys.publicKey).trim_eq,
    String.ofList_toList, hexDecode_hex]
  rw [if_neg (not_not.mpr keys.private_length), if_neg (not_not.mpr keys.public_length)]
  rfl

/-- The whole file is read back. -/
theorem loadIdentity_payload (keys : KeyPair) :
    loadIdentity keys.identity.payload = .ok keys.identity := by
  have hprivate := hexText_hex keys.privateKey
  have hpublic := hexText_hex keys.publicKey
  apply loadIdentity_of_keys keys
  rw [NodeIdentity.payload, show keys.identity.privateKey = keys.privateKey from rfl,
    show keys.identity.publicKeyHex = hex keys.publicKey from rfl,
    lines_of_newline hprivate.newline_not_mem, lines_of_newline hpublic.newline_not_mem,
    hprivate.stripCr_eq, hpublic.stripCr_eq]

/-- A file without a second line is refused. -/
theorem loadIdentity_of_short (h : (lines text)[1]? = none) :
    loadIdentity text = .error ⟨"malformed identity file"⟩ := by
  unfold loadIdentity
  dsimp only
  rw [h, Option.map_none]
  cases (lines text)[0]? with
  | none => rfl
  | some l => rfl

/-- Any first part of the file is refused, or gives the identity that was being written. -/
theorem loadIdentity_take (keys : KeyPair) (k : ℕ) {identity : NodeIdentity}
    (hload : loadIdentity (keys.identity.payload.take k) = .ok identity) :
    identity = keys.identity := by
  have hprivate := hexText_hex keys.privateKey
  have hpublic := hexText_hex keys.publicKey
  have hpayload : keys.identity.payload = (hex keys.privateKey).toList ++
      '\n' :: ((hex keys.publicKey).toList ++ '\n' :: (keys.identity.nodeId.toList ++ ['\n'])) := rfl
  generalize keys.identity.nodeId.toList ++ ['\n'] = third at hpayload
  -- the cut is in the first line or right behind it
  have hshort (hone : (lines (keys.identity.payload.take k))[1]? = none) : False := by
    rw [loadIdentity_of_short hone] at hload
    cases hload
  rw [hpayload] at hload hshort
  rw [List.take_append] at hload hshort
  cases hcut : k - (hex keys.privateKey).toList.length with
  | zero =>
    rw [hcut, List.take_zero, List.append_nil] at hshort
    refine (hshort ?_).elim
    by_cases hnil : (hex keys.privateKey).toList.take k = []
    · rw [hnil, lines]
      rfl
    · rw [lines_of_last (hprivate.take k).newline_not_mem hnil]
      rfl
  | succ j =>
    have hwhole : (hex keys.privateKey).toList.take k = (hex keys.privateKey).toList :=
      List.take_of_length_le (by omega)
    rw [hcut, hwhole, List.take_succ_cons] at hload hshort
    rw [lines_of_newline hprivate.newline_not_mem, hprivate.stripCr_eq] at hshort
    have hfirst := lines_of_newline hprivate.newline_not_mem
      (((hex keys.publicKey).toList ++ '\n' :: third).take j)
    rw [hprivate.stripCr_eq] at hfirst
    rw [List.take_append] at hload hshort hfirst
    cases hcut' : j - (hex keys.publicKey).toList.length with
    | zero =>
      rw [hcut', List.take_zero, List.append_nil] at hload hshort hfirst
      by_cases hnil : (hex keys.publicKey).toList.take j = []
      · refine (hshort ?_).elim
        rw [hnil, lines]
        rfl
      · -- the second line is cut: it is too short, unless only its end is missing
        rw [lines_of_last (hpublic.take j).newline_not_mem hnil] at hfirst
        obtain ⟨-, -, hlength, -⟩ := loadIdentity_of_lines hprivate (hpublic.take j) hfirst hload
        have hwhole : (hex keys.publicKey).toList.take j = (hex keys.publicKey).toList := by
          have hle := length_hex keys.publicKey
          rw [keys.public_length] at hle
          rw [List.length_take] at hlength
          exact List.take_of_length_le (by omega)
        rw [hwhole] at hload hfirst
        rw [loadIdentity_of_keys keys hfirst] at hload
        exact (Except.ok.inj hload).symm
    | succ i =>
      have hwhole : (hex keys.publicKey).toList.take j = (hex keys.publicKey).toList :=
        List.take_of_length_le (by omega)
      rw [hcut', hwhole, List.take_succ_cons] at hload hfirst
      rw [lines_of_newline hpublic.newline_not_mem, hpublic.stripCr_eq] at hfirst
      rw [loadIdentity_of_keys keys hfirst] at hload
      exact (Except.ok.inj hload).symm

/-! ## Starts -/

/-- A file that is there stays as it is, and every start that can read it gets the same. -/
theorem identityRun_of_file (text : List Char) (starts : List Startup)
    {a : Startup × Except IdentityError NodeIdentity} (ha : a ∈ identityRun (some text) starts) :
    a.1 ∈ starts ∧ (a.1.unreadable = none ∧ a.2 = loadIdentity text ∨
      ∃ reason, a.1.unreadable = some reason ∧ a.2 = .error ⟨reason⟩) := by
  induction starts with
  | nil => cases ha
  | cons s rest ih =>
    have hfile : (loadOrCreateIdentity (some text) s).1 = some text := by
      unfold loadOrCreateIdentity
      cases s.unreadable <;> rfl
    rw [identityRun, hfile, List.mem_cons] at ha
    rcases ha with rfl | ha
    · refine ⟨List.mem_cons_self, ?_⟩
      unfold loadOrCreateIdentity
      cases hread : s.unreadable with
      | none => exact .inl ⟨rfl, rfl⟩
      | some reason => exact .inr ⟨reason, rfl, rfl⟩
    · obtain ⟨hmem, hanswer⟩ := ih ha
      exact ⟨List.mem_cons_of_mem s hmem, hanswer⟩

/-- The starts on a file that is a first part of the one for a key pair. -/
theorem identityRun_of_part (keys : KeyPair) (k : ℕ) (starts : List Startup)
    {a : Startup × Except IdentityError NodeIdentity} {identity : NodeIdentity}
    (ha : a ∈ identityRun (some (keys.identity.payload.take k)) starts)
    (hok : a.2 = .ok identity) : identity = keys.identity := by
  obtain ⟨-, ⟨-, hload⟩ | ⟨reason, -, herror⟩⟩ := identityRun_of_file _ starts ha
  · exact loadIdentity_take keys k (hload.symm.trans hok)
  · rw [herror] at hok
    cases hok

/-- Once there is a file, every start that can read it returns the same identity. -/
theorem pairwise_of_file (text : List Char) (starts : List Startup) :
    (identityRun (some text) starts).Pairwise fun a b =>
      ∀ identity, a.2 = .ok identity → b.1.unreadable = none → b.2 = .ok identity := by
  apply List.pairwise_of_forall_mem_list
  intro a ha b hb identity hok hread
  obtain ⟨-, ⟨-, hload⟩ | ⟨reason, -, herror⟩⟩ := identityRun_of_file text starts ha
  · obtain ⟨-, ⟨-, hload'⟩ | ⟨reason, hreason, -⟩⟩ := identityRun_of_file text starts hb
    · rw [hload', ← hload, hok]
    · rw [hread] at hreason
      cases hreason
  · rw [herror] at hok
    cases hok

/-- Over any starts on a machine without an identity, with files that cannot be made, writes
that are torn anywhere and reads that fail: an identity that a start returns is that of a
drawn key pair, and every later start that can read the file returns it, too. -/
theorem identity_stable (starts : List Startup) :
    (∀ a ∈ identityRun none starts, ∀ identity, a.2 = .ok identity →
      ∃ s ∈ starts, identity = s.keys.identity) ∧
    (identityRun none starts).Pairwise fun a b =>
      ∀ identity, a.2 = .ok identity → b.1.unreadable = none → b.2 = .ok identity := by
  induction starts with
  | nil => exact ⟨by simp [identityRun], List.Pairwise.nil⟩
  | cons s rest ih =>
    have hrun : identityRun none (s :: rest) = (s, (createIdentity s.keys s.creation).2) ::
        identityRun (createIdentity s.keys s.creation).1 rest := rfl
    rw [hrun]
    cases s.creation with
    | refused reason =>
      obtain ⟨hdrawn, hlater⟩ := ih
      refine ⟨fun a ha identity hok => ?_, List.pairwise_cons.mpr ⟨fun b _ identity hok => ?_, hlater⟩⟩
      · rcases List.mem_cons.mp ha with rfl | ha
        · cases hok
        · obtain ⟨t, ht, heq⟩ := hdrawn a ha identity hok
          exact ⟨t, List.mem_cons_of_mem s ht, heq⟩
      · cases hok
    | torn written reason =>
      refine ⟨fun a ha identity hok => ?_, List.pairwise_cons.mpr ⟨fun b _ identity hok => ?_,
        pairwise_of_file _ rest⟩⟩
      · rcases List.mem_cons.mp ha with rfl | ha
        · cases hok
        · exact ⟨s, List.mem_cons_self, identityRun_of_part s.keys written rest ha hok⟩
      · cases hok
    | complete =>
      have hfile : (createIdentity s.keys .complete).1 =
          some (s.keys.identity.payload.take s.keys.identity.payload.length) := by
        rw [List.take_length]
        rfl
      refine ⟨fun a ha identity hok => ?_, List.pairwise_cons.mpr ⟨fun b hb identity hok hread => ?_,
        pairwise_of_file _ rest⟩⟩
      · rcases List.mem_cons.mp ha with rfl | ha
        · cases hok
          exact ⟨s, List.mem_cons_self, rfl⟩
        · rw [hfile] at ha
          exact ⟨s, List.mem_cons_self, identityRun_of_part s.keys _ rest ha hok⟩
      · cases hok
        obtain ⟨-, ⟨-, hload⟩ | ⟨reason, hreason, -⟩⟩ := identityRun_of_file _ rest hb
        · rw [hload]
          exact loadIdentity_payload s.keys
        · rw [hread] at hreason
          cases hreason

end Exodus.Analysis
