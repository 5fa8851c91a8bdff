import Mathlib.Algebra.Order.Field.Rat

/-!
# Diffserv — the policy classifier

`PolicyClassifier` and its policies (`diffserv/dsPolicy.cc`).  Sizes are bytes, doubles are
rationals, and a call of `Random::uniform(0.0, 1.0)` returns the draw that comes with the packet.

`getPolicyTableEntry` looks one entry past the end of the table, so that the table is an array of
which any contents are possible where nothing has been added.  `EWPolicy` and `DEWPPolicy` keep all
of their state to themselves and are parameters (`OtherPolicies`).
-/

namespace Afabric

/-- The indices into `policy_pool`. -/
inductive PolicyIndex where
  | null
  | tsw2cm
  | tsw3cm
  | tb
  | srtcm
  | trtcm
  | sfd
  | ew
  | dewp
deriving DecidableEq

/-- Which of the code points of its policer a packet is given. -/
inductive DsMark where
  | initialCodePt
  | downgrade1
  | downgrade2
deriving DecidableEq

structure PolicyTableEntry where
  sourceNode : ℤ
  destNode : ℤ
  policyIndex : PolicyIndex
  codePt : ℤ
  /-- Committed information rate, in bytes per second. -/
  cir : ℚ
  /-- Committed burst size. -/
  cbs : ℚ
  cBucket : ℚ
  /-- Excess burst size. -/
  ebs : ℚ
  eBucket : ℚ
  /-- Peak information rate. -/
  pir : ℚ
  /-- Peak burst size. -/
  pbs : ℚ
  pBucket : ℚ
  arrivalTime : ℚ
  avgRate : ℚ
  winLen : ℚ

structure PolicerTableEntry where
  policyIndex : PolicyIndex
  initialCodePt : ℤ
  downgrade1 : ℤ
  downgrade2 : ℤ

def PolicerTableEntry.codePt (policer : PolicerTableEntry) : DsMark → ℤ
  | .initialCodePt => policer.initialCodePt
  | .downgrade1 => policer.downgrade1
  | .downgrade2 => policer.downgrade2

/-- The headers of a packet, and a draw for the policies that are randomised. -/
structure DsPacket where
  saddr : ℤ
  daddr : ℤ
  flowid : ℤ
  size : ℕ
  draw : ℚ

/-- `flow_entry`; it is looked up by `fid` only. -/
structure FlowEntry where
  fid : ℤ
  lastUpdate : ℚ
  bytesSent : ℤ
  count : ℤ

/-! ### The policies -/

def NullPolicy.applyMeter (policy : PolicyTableEntry) (now : ℚ) : PolicyTableEntry :=
  { policy with arrivalTime := now }

/-- The time sliding window of `TSW2CMPolicy` and `TSW3CMPolicy`. -/
def applyTSWMeter (policy : PolicyTableEntry) (now : ℚ) (size : ℕ) : PolicyTableEntry :=
  let bytesInTSW := policy.avgRate * policy.winLen
  let newBytes := bytesInTSW + size
  { policy with
    avgRate := newBytes / (now - policy.arrivalTime + policy.winLen)
    arrivalTime := now }

def TSW2CMPolicy.applyPolicer (policy : PolicyTableEntry) (draw : ℚ) : DsMark :=
  if policy.avgRate > policy.cir ∧ draw ≤ 1 - policy.cir / policy.avgRate then .downgrade1
  else .initialCodePt

def TSW3CMPolicy.applyPolicer (policy : PolicyTableEntry) (draw : ℚ) : DsMark :=
  let rand := policy.avgRate * (1 - draw)
  if rand > policy.pir then .downgrade2
  else if rand > policy.cir then .downgrade1
  else .initialCodePt

def TBPolicy.applyMeter (policy : PolicyTableEntry) (now : ℚ) : PolicyTableEntry :=
  let tokenBytes := policy.cir * (now - policy.arrivalTime)
  { policy with
    cBucket := if policy.cBucket + tokenBytes ≤ policy.cbs then policy.cBucket + tokenBytes
      else policy.cbs
    arrivalTime := now }

def TBPolicy.applyPolicer (policy : PolicyTableEntry) (size : ℕ) : PolicyTableEntry × DsMark :=
  if policy.cBucket - size ≥ 0 then
    ({ policy with cBucket := policy.cBucket - size }, .initialCodePt)
  else (policy, .downgrade1)

def SRTCMPolicy.applyMeter (policy : PolicyTableEntry) (now : ℚ) : PolicyTableEntry :=
  let tokenBytes := policy.cir * (now - policy.arrivalTime)
  if policy.cBucket + tokenBytes ≤ policy.cbs then
    { policy with cBucket := policy.cBucket + tokenBytes, arrivalTime := now }
  else
    let tokenBytes := tokenBytes - (policy.cbs - policy.cBucket)
    { policy with
      cBucket := policy.cbs
      eBucket := if policy.eBucket + tokenBytes ≤ policy.ebs then policy.eBucket + tokenBytes
        else policy.ebs
      arrivalTime := now }

def SRTCMPolicy.applyPolicer (policy : PolicyTableEntry) (size : ℕ) :
    PolicyTableEntry × DsMark :=
  if policy.cBucket - size ≥ 0 then
    ({ policy with cBucket := policy.cBucket - size }, .initialCodePt)
  else if policy.eBucket - size ≥ 0 then
    ({ policy with eBucket := policy.eBucket - size }, .downgrade1)
  else (policy, .downgrade2)

def TRTCMPolicy.applyMeter (policy : PolicyTableEntry) (now : ℚ) : PolicyTableEntry :=
  let committed := policy.cir * (now - policy.arrivalTime)
  let peak := policy.pir * (now - policy.arrivalTime)
  { policy with
    cBucket := if policy.cBucket + committed ≤ policy.cbs then policy.cBucket + committed
      else policy.cbs
    pBucket := if policy.pBucket + peak ≤ policy.pbs then policy.pBucket + peak else policy.pbs
    arrivalTime := now }

def TRTCMPolicy.applyPolicer (policy : PolicyTableEntry) (size : ℕ) :
    PolicyTableEntry × DsMark :=
  if policy.pBucket - size < 0 then (policy, .downgrade2)
  else if policy.cBucket - size < 0 then
    ({ policy with pBucket := policy.pBucket - size }, .downgrade1)
  else
    ({ policy with cBucket := policy.cBucket - size, pBucket := policy.pBucket - size },
      .initialCodePt)

/-- `SFDPolicy::applyMeter` on the flow table; flows that have expired are removed on the way to the
entry of the packet. -/
def SFDPolicy.applyMeter (now : ℚ) (pkt : DsPacket) : List FlowEntry → List FlowEntry
  | [] => [⟨pkt.flowid, now, pkt.size, 0⟩]
  | p :: l =>
      if p.fid = pkt.flowid then
        { p with lastUpdate := now, bytesSent := p.bytesSent + pkt.size } :: l
      else if p.lastUpdate + 5 < now then SFDPolicy.applyMeter now pkt l
      else p :: SFDPolicy.applyMeter now pkt l

/-- `downgrade2` of the policer says how packets beyond the threshold `cir` are penalised. -/
def SFDPolicy.applyPolicer (policy : PolicyTableEntry) (policer : PolicerTableEntry)
    (pkt : DsPacket) : List FlowEntry → List FlowEntry × DsMark
  | [] => ([], .initialCodePt)
  | p :: l =>
      if p.fid = pkt.flowid then
        if p.bytesSent > policy.cir then
          if policer.downgrade2 = 0 then (p :: l, .downgrade1)
          else if policer.downgrade2 = 1 then
            if pkt.draw > 1 - policy.cir / p.bytesSent then (p :: l, .initialCodePt)
            else (p :: l, .downgrade1)
          else if p.count = 5 then ({ p with count := 0 } :: l, .initialCodePt)
          else ({ p with count := p.count + 1 } :: l, .downgrade1)
        else (p :: l, .initialCodePt)
      else
        let r := SFDPolicy.applyPolicer policy policer pkt l
        (p :: r.1, r.2)

/-- `EWPolicy` and `DEWPPolicy`, with their common state: meter and policer of a packet. -/
structure OtherPolicies (ε : Type) where
  ewInit : ε → ℤ → ℤ → ℤ → ε
  dewpInit : ε → ℚ → ε
  ew : ε → ℚ → DsPacket → ε × DsMark
  dewp : ε → ℚ → DsPacket → ε × DsMark

/-! ### The classifier -/

structure PolicyClassifier (ε : Type) where
  policyTable : ℕ → PolicyTableEntry
  policyTableSize : ℕ
  policerTable : List PolicerTableEntry
  /-- The policies that are not `NULL` in `policy_pool`. -/
  pool : PolicyIndex → Bool
  flowTable : List FlowEntry
  other : ε

/-- The arguments of `addPolicyEntry` after the code point, as in the command line. -/
inductive PolicySpec where
  | null
  | tsw2cm (cir : ℚ) (winLen : Option ℚ)
  | tsw3cm (cir pir : ℚ)
  | tokenBucket (cir cbs : ℚ)
  | srTCM (cir cbs ebs : ℚ)
  | trTCM (cir cbs pir pbs : ℚ)
  | sfd (cir : ℤ)
  | ew (th batch size : ℤ)
  | dewp (inv : ℚ)

/-- What a packet was given, by the entry of the policy table at `entry`; `mark` is absent when the
policy is not in the pool. -/
structure DsMarking where
  time : ℚ
  size : ℕ
  entry : ℕ
  mark : Option DsMark
  codePt : ℤ

namespace PolicyClassifier

variable {ε : Type} (O : OtherPolicies ε)

def anyHost : ℤ := -1

def maxPolicies : ℕ := 20

def maxCP : ℕ := 40

/-- The constructor, over any memory. -/
def create (policyTable : ℕ → PolicyTableEntry) (other : ε) : PolicyClassifier ε where
  policyTable := policyTable
  policyTableSize := 0
  policerTable := []
  pool := fun _ => false
  flowTable := []
  other := other

/-- The policy that is named, and the fields it sets in an entry. -/
def PolicySpec.configure (policy : PolicyTableEntry) : PolicySpec → PolicyTableEntry
  | .null => { policy with policyIndex := .null }
  | .tsw2cm cir winLen =>
      { policy with
        policyIndex := .tsw2cm, cir := cir / 8, avgRate := cir / 8
        winLen := winLen.getD policy.winLen }
  | .tsw3cm cir pir =>
      { policy with policyIndex := .tsw3cm, cir := cir / 8, avgRate := cir / 8, pir := pir / 8 }
  | .tokenBucket cir cbs =>
      { policy with
        policyIndex := .tb, cir := cir / 8, avgRate := cir / 8, cbs := cbs, cBucket := cbs }
  | .srTCM cir cbs ebs =>
      { policy with
        policyIndex := .srtcm, cir := cir / 8, avgRate := cir / 8, cbs := cbs, cBucket := cbs
        ebs := ebs, eBucket := ebs }
  | .trTCM cir cbs pir pbs =>
      { policy with
        policyIndex := .trtcm, cir := cir / 8, avgRate := cir / 8, cbs := cbs, cBucket := cbs
        pir := pir / 8, pbs := pbs, pBucket := pbs }
  | .sfd cir => { policy with policyIndex := .sfd, cir := cir }
  | .ew _ _ _ => { policy with policyIndex := .ew }
  | .dewp _ => { policy with policyIndex := .dewp }

def addPolicyEntry (c : PolicyClassifier ε) (source dest codePt : ℤ) (spec : PolicySpec) :
    PolicyClassifier ε :=
  if c.policyTableSize = maxPolicies then c
  else
    let policy := PolicySpec.configure
      { c.policyTable c.policyTableSize with
        sourceNode := source, destNode := dest, codePt := codePt, arrivalTime := 0, winLen := 1 }
      spec
    { c with
      policyTable := Function.update c.policyTable c.policyTableSize policy
      policyTableSize := c.policyTableSize + 1
      pool := Function.update c.pool policy.policyIndex true
      other := match spec with
        | .ew th batch size => O.ewInit c.other th batch size
        | .dewp inv => O.dewpInit c.other inv
        | _ => c.other }

/-- `none` when the table is full: what follows then writes past its end.  Any `downgrade2` is
possible when it is not given. -/
def addPolicerEntry (c : PolicyClassifier ε) (index : PolicyIndex) (initialCodePt downgrade1 : ℤ)
    (downgrade2 : ℤ) : Option (PolicyClassifier ε) :=
  if c.policerTable.length = maxCP then none
  else
    some { c with
      pool := Function.update c.pool index true
      policerTable := c.policerTable ++
        [⟨index, initialCodePt, if index = .null then initialCodePt else downgrade1, downgrade2⟩] }

def getPolicyTableEntry (c : PolicyClassifier ε) (source dest : ℤ) : Option ℕ :=
  (List.range (c.policyTableSize + 1)).find? fun i =>
    ((c.policyTable i).sourceNode = source ∨ (c.policyTable i).sourceNode = anyHost) ∧
    ((c.policyTable i).destNode = dest ∨ (c.policyTable i).destNode = anyHost)

def getPolicerTableEntry (c : PolicyClassifier ε) (index : PolicyIndex) (oldCodePt : ℤ) :
    Option PolicerTableEntry :=
  c.policerTable.find? fun policer =>
    policer.policyIndex = index ∧ policer.initialCodePt = oldCodePt

/-- `applyMeter` and then `applyPolicer` of the policy of the entry at `i`. -/
def apply (c : PolicyClassifier ε) (i : ℕ) (policer : PolicerTableEntry) (now : ℚ)
    (pkt : DsPacket) : PolicyClassifier ε × DsMark :=
  let policy := c.policyTable i
  let set := fun e : PolicyTableEntry => { c with policyTable := Function.update c.policyTable i e }
  match policy.policyIndex with
  | .null => (set (NullPolicy.applyMeter policy now), .initialCodePt)
  | .tsw2cm =>
      let policy := applyTSWMeter policy now pkt.size
      (set policy, TSW2CMPolicy.applyPolicer policy pkt.draw)
  | .tsw3cm =>
      let policy := applyTSWMeter policy now pkt.size
      (set policy, TSW3CMPolicy.applyPolicer policy pkt.draw)
  | .tb =>
      let r := TBPolicy.applyPolicer (TBPolicy.applyMeter policy now) pkt.size
      (set r.1, r.2)
  | .srtcm =>
      let r := SRTCMPolicy.applyPolicer (SRTCMPolicy.applyMeter policy now) pkt.size
      (set r.1, r.2)
  | .trtcm =>
      let r := TRTCMPolicy.applyPolicer (TRTCMPolicy.applyMeter policy now) pkt.size
      (set r.1, r.2)
  | .sfd =>
      let r := SFDPolicy.applyPolicer policy policer pkt (SFDPolicy.applyMeter now pkt c.flowTable)
      ({ c with flowTable := r.1 }, r.2)
  | .ew =>
      let r := O.ew c.other now pkt
      ({ c with other := r.1 }, r.2)
  | .dewp =>
      let r := O.dewp c.other now pkt
      ({ c with other := r.1 }, r.2)

/-- `mark`; `none` when the program ends, because there is no policy or because `policer` is
`NULL`. -/
def mark (c : PolicyClassifier ε) (now : ℚ) (pkt : DsPacket) :
    Option (PolicyClassifier ε × DsMarking) := do
  let i ← c.getPolicyTableEntry pkt.saddr pkt.daddr
  let policy := c.policyTable i
  if c.pool policy.policyIndex then
    let policer ← c.getPolicerTableEntry policy.policyIndex policy.codePt
    let r := c.apply O i policer now pkt
    return (r.1, ⟨now, pkt.size, i, some r.2, policer.codePt r.2⟩)
  else return (c, ⟨now, pkt.size, i, none, policy.codePt⟩)

/-- `updatePolicyRTT`, which writes the length of the window. -/
def updatePolicyRTT (c : PolicyClassifier ε) (source dest : ℤ) (winLen : ℚ) : PolicyClassifier ε :=
  match c.getPolicyTableEntry source dest with
  | none => c
  | some i =>
      { c with
        policyTable := Function.update c.policyTable i { c.policyTable i with winLen := winLen } }

/-- The runs from a classifier at the time `t₀`, with the markings, the newest first, and the
clock. -/
inductive Runs (c₀ : PolicyClassifier ε) (t₀ : ℚ) :
    PolicyClassifier ε → ℚ → List DsMarking → Prop where
  | refl : Runs c₀ t₀ c₀ t₀ []
  | addPolicyEntry {c : PolicyClassifier ε} {clock : ℚ} {ms : List DsMarking}
      (h : Runs c₀ t₀ c clock ms) (source dest codePt : ℤ) (spec : PolicySpec) :
      Runs c₀ t₀ (c.addPolicyEntry O source dest codePt spec) clock ms
  | addPolicerEntry {c c' : PolicyClassifier ε} {clock : ℚ} {ms : List DsMarking}
      (h : Runs c₀ t₀ c clock ms) {index : PolicyIndex} {initialCodePt downgrade1 downgrade2 : ℤ}
      (hc : c.addPolicerEntry index initialCodePt downgrade1 downgrade2 = some c') :
      Runs c₀ t₀ c' clock ms
  | updatePolicyRTT {c : PolicyClassifier ε} {clock : ℚ} {ms : List DsMarking}
      (h : Runs c₀ t₀ c clock ms) (source dest : ℤ) (winLen : ℚ) :
      Runs c₀ t₀ (c.updatePolicyRTT source dest winLen) clock ms
  | mark {c c' : PolicyClassifier ε} {clock now : ℚ} {ms : List DsMarking} {m : DsMarking}
      {pkt : DsPacket} (h : Runs c₀ t₀ c clock ms) (hnow : clock ≤ now)
      (hm : c.mark O now pkt = some (c', m)) : Runs c₀ t₀ c' now (m :: ms)

end PolicyClassifier

end Afabric
