import Predictive.Interchange.Outcome
import Predictive.Interchange.Prediction
import Predictive.Journal
import Predictive.Proofs.AutoLimit
import Predictive.Proofs.ConflictOrder
import Predictive.Proofs.Journal
import Predictive.Proofs.LeftContext
import Predictive.Proofs.LeftRecursion
import Predictive.Proofs.Passes
import Predictive.Proofs.PolicyIndependence
import Predictive.Proofs.ReadBack
import Predictive.Proofs.RecordedRun
import Predictive.Proofs.Recurrence
import Predictive.Proofs.Renaming
import Predictive.Proofs.SententialForm
import Predictive.Proofs.Session
import Predictive.Proofs.StackBottom
import Predictive.Proofs.Tokens
import Predictive.Proofs.Truncation
import Predictive.Proofs.Unambiguous
import Predictive.Proofs.ViablePrefix
import Predictive.Proofs.WrittenForm
import Predictive.Session
