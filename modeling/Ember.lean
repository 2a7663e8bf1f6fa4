import Ember.Main
import Ember.Proofs.C.Literal
import Ember.Proofs.C.Text
import Ember.Proofs.IR.Building
import Ember.Proofs.Literal.Meaning
import Ember.Proofs.Lower.Call
import Ember.Proofs.Lower.Conversion
import Ember.Proofs.Lower.Scoping
import Ember.Proofs.Meaning.Preservation
import Ember.Proofs.Pass.Report
import Ember.Proofs.Pass.Scalar
import Ember.Proofs.Project.Run
