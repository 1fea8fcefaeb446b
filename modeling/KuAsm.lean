import KuAsm.Main
import KuAsm.Proofs.Balance
import KuAsm.Proofs.Checking
import KuAsm.Proofs.Comments
import KuAsm.Source.Equality
import KuAsm.Text.Lines
import KuAsm.Proofs.Chain
import KuAsm.Proofs.Demand
import KuAsm.Proofs.Effect
import KuAsm.Proofs.Literals
import KuAsm.Proofs.Statistics
import KuAsm.Proofs.Tokens
import KuAsm.Proofs.Values
import KuAsm.Proofs.RoundTrip
import KuAsm.Proofs.ScalarCode
import KuAsm.Proofs.Allotment
import KuAsm.Proofs.Blame
import KuAsm.Proofs.Branching
import KuAsm.Proofs.Budget
import KuAsm.Proofs.Calls
import KuAsm.Proofs.Copying
import KuAsm.Proofs.Inclusion
import KuAsm.Proofs.Neutrality
import KuAsm.Proofs.Renaming
import KuAsm.Proofs.Resolution
import KuAsm.Proofs.SelfCast
import KuAsm.Proofs.Slicing
